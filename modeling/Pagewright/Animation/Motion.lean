import Pagewright.Animation.Basic
import Pagewright.Json.Writer
import Pagewright.Text.Blank
import Pagewright.Text.Lines
import Pagewright.Text.Replace

/-!
Animations as declarative props: the states before and after the animation, by motion key, and
the transition between them.
-/

namespace Pagewright

def Channel.motionKey : Channel → String
  | .translateX => "x"
  | .translateY => "y"
  | .scale => "scale"
  | .rotate => "rotate"

/-- The key of a track in the states, unless no rendering knows its channel. -/
def Track.motionKey? (t : Track) : Option String :=
  match t.target with
  | .property name => some name
  | .channel c => some c.motionKey
  | .unknownChannel => none

/-- A sampled value in the states: scale is a number, everything else as it is, and a keyframe
without a value null. -/
def Track.motionValue (t : Track) (k : Keyframe) : Json :=
  match k.value? with
  | none => .null
  | some value =>
    if t.target = .channel .scale then value.toNumber?.elim .null .ofNumber else value.toJson

namespace Track

def startKeyframe? (t : Track) : Option Keyframe := t.keyframes.find? fun k => k.time.same 0

/-- The keyframe at the end of the animation, or else the last one. -/
def endKeyframe? (t : Track) (duration : Number) : Option Keyframe :=
  (t.keyframes.find? fun k => k.time.same duration).or t.keyframes.getLast?

end Track

structure Variants where
  initial : Dict Json
  animate : Dict Json

/-- Enters a track into both states, if it has a keyframe at the start and a known key. -/
def Variants.addTrack (duration : Number) (v : Variants) (t : Track) : Variants :=
  match t.startKeyframe?, t.endKeyframe? duration, t.motionKey? with
  | some first, some last, some key =>
    ⟨v.initial.insert key (t.motionValue first), v.animate.insert key (t.motionValue last)⟩
  | _, _, _ => v

/-- The props of an animated element. Durations are in seconds. -/
structure MotionProps where
  variants : Variants
  animate : String
  whileHover : Option String
  whileTap : Option String
  duration : Number
  delay : Number
  ease : Option String

namespace Animation

def lastEasing? (a : Animation) : Option String :=
  (a.tracks.filter fun t => t.easing ≠ "").getLast?.map Track.easing

/-- The props of an animation. The trigger decides when the second state applies. -/
def motionProps (a : Animation) : MotionProps where
  variants := a.tracks.foldl (Variants.addTrack a.duration) ⟨.empty, .empty⟩
  animate := if a.trigger = .entry then "animate" else "initial"
  whileHover := if a.trigger = .hover then some "animate" else none
  whileTap := if a.trigger = .click then some "animate" else none
  duration := a.duration / 1000
  delay := a.delay / 1000
  ease := a.lastEasing?

end Animation

def Variants.toJson (v : Variants) : Json :=
  .object [("initial", .object v.initial.entries), ("animate", .object v.animate.entries)]

namespace MotionProps

def transitionJson (p : MotionProps) : Json :=
  .object ([("duration", .ofNumber p.duration), ("delay", .ofNumber p.delay)] ++
    (p.ease.map fun ease => ("ease", Json.string ease)).toList)

/-- The props that name a state, in order. -/
def states (p : MotionProps) : List (String × String) :=
  [("initial", "initial"), ("animate", p.animate)] ++
    (p.whileHover.map ("whileHover", ·)).toList ++ (p.whileTap.map ("whileTap", ·)).toList

def toJson (p : MotionProps) : Json :=
  .object ([("variants", p.variants.toJson)] ++
    (p.states.map fun (key, state) => (key, Json.string state)) ++
    [("transition", p.transitionJson)])

def attributes (p : MotionProps) : String :=
  joinWith " " (["variants=\x7b" ++ p.variants.toJson.compact ++ "\x7d"] ++
    (p.states.map fun (key, state) => key ++ "=\"" ++ state ++ "\"") ++
    ["transition=\x7b" ++ p.transitionJson.compact ++ "\x7d"])

/-- A document spread over lines, one level deeper than on its own. -/
def nested (j : Json) : String :=
  replaceChars (fun c => if c = '\n' then "\n  " else c.toString) j.pretty

/-- The props as an object of generated code, without its braces. -/
def body (p : MotionProps) : String :=
  joinLines (["  variants: " ++ nested p.variants.toJson ++ ","] ++
    (p.states.map fun (key, state) => "  " ++ key ++ ": \"" ++ state ++ "\",") ++
    ["  transition: " ++ nested p.transitionJson])

end MotionProps

namespace Animation

/-- The constant that holds the props: the name without blanks, and a fixed ending. -/
def constantName (a : Animation) : String :=
  String.ofList (a.name.toList.filter fun c => !isBlank c) ++ "Animation"

def motionSnippet (a : Animation) : String :=
  "import \x7b motion \x7d from 'framer-motion';\n\nconst " ++ a.constantName ++ " = \x7b\n" ++
    a.motionProps.body ++ "\n\x7d;\n\n// Usage:\n// <motion.div \x7b..." ++ a.constantName ++
    "\x7d>Content</motion.div>\n"

end Animation

end Pagewright
