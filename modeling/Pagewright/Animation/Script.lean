import Pagewright.Animation.Motion
import Pagewright.Animation.Stylesheet

/-!
Animations as scripts: a paused sequence with one step for each track, and the wiring that plays
it. A step takes the last value of its track and the timing of the whole animation.
-/

namespace Pagewright

/-- One step of a scripted sequence. Durations are in seconds. -/
structure ScriptStep where
  values : Dict String
  duration : Number
  delay : Number
  ease : String

namespace Track

/-- The key of a track in a step, unless no rendering knows its channel. -/
def scriptKey? (t : Track) : Option String :=
  match t.target with
  | .channel .rotate => some "rotation"
  | _ => t.motionKey?

/-- A sampled value in a step: scale as a number, everything else as it is shown. -/
def scriptValue (t : Track) (value : Scalar) : String :=
  if t.target = .channel .scale then (value.toNumber?.getD .notANumber).plainText else value.shown

/-- The values of a step: the key of the track with its last value, if there is one. -/
def scriptValues (t : Track) : Dict String :=
  match t.scriptKey? with
  | none => .empty
  | some key =>
    (t.keyframes.filterMap Keyframe.value?).foldl
      (fun values value => values.insert key (t.scriptValue value)) .empty

/-- The easing of a step, in which a named curve stands in for a Bézier curve. -/
def scriptEase (t : Track) : String :=
  String.ofList (replaceFirst "cubic-bezier".toList "power4".toList t.easing.toList)

end Track

def Animation.scriptSteps (a : Animation) : List ScriptStep :=
  a.tracks.map fun t => ⟨t.scriptValues, a.duration / 1000, a.delay / 1000, t.scriptEase⟩

namespace ScriptStep

/-- The fields of a step, as they stand between its braces. -/
def fields (s : ScriptStep) : List String :=
  (s.values.entries.map fun (key, value) => key ++ ": \"" ++ value ++ "\"") ++
    ["duration: " ++ s.duration.plainText, "delay: " ++ s.delay.plainText,
      "ease: \"" ++ s.ease ++ "\""]

def text (s : ScriptStep) : String :=
  "\n  .to(element, \x7b\n    " ++ joinWith ",\n    " s.fields ++ "\n  \x7d)"

def toDocument (s : ScriptStep) : Json :=
  .object [
    ("values", .object (s.values.entries.map fun (key, value) => (key, .string value))),
    ("duration", .number s.duration),
    ("delay", .number s.delay),
    ("ease", .string s.ease)]

end ScriptStep

/-- The code that lets a trigger play the sequence. -/
def Trigger.wiring : Trigger → String
  | .entry => "timeline.play();"
  | .exit => "timeline.reverse();"
  | .hover =>
    "element.addEventListener('mouseenter', () => timeline.play());\n" ++
      "element.addEventListener('mouseleave', () => timeline.reverse());"
  | .click => "element.addEventListener('click', () => timeline.play());"
  | .scroll =>
    "const scrollTrigger = ScrollTrigger.create(\x7b\n" ++
      "  trigger: element,\n" ++
      "  start: \"top 80%\",\n" ++
      "  onEnter: () => timeline.play(),\n" ++
      "  onLeaveBack: () => timeline.reverse()\n" ++
      "\x7d);"

namespace Animation

/-- The sequence of some steps and its wiring, for code that has looked up the element. -/
def scriptCode (a : Animation) (steps : List ScriptStep) : String :=
  "const timeline = gsap.timeline(\x7b\n  paused: true" ++
    (if a.trigger = .hover then ",\n  repeat: 0" else "") ++ "\n\x7d)" ++
    String.join (steps.map ScriptStep.text) ++ ";\n\n" ++ a.trigger.wiring ++ "\n"

def scriptImports (a : Animation) : String :=
  "import gsap from 'gsap';\n" ++
    (if a.trigger = .scroll then
      "import ScrollTrigger from 'gsap/ScrollTrigger';\n\ngsap.registerPlugin(ScrollTrigger);\n"
    else "")

def scriptLookup (a : Animation) : String :=
  "const element = document.querySelector('#" ++ elementName a.elementId ++ "');"

/-- A module whose default export runs some code of an animation. -/
def scriptModule (a : Animation) (code : String) : String :=
  a.scriptImports ++ "\nexport default function runAnimation() \x7b\n  " ++ a.scriptLookup ++
    "\n  if (!element) return;\n\n" ++ indentBlock code ++ "\n\x7d\n"

def scriptSnippet (a : Animation) : String :=
  a.scriptImports ++ "\n" ++ a.scriptLookup ++ "\n\n" ++ a.scriptCode a.scriptSteps

end Animation

end Pagewright
