import Pagewright.Animation.Script

/-! The renderings of animations, and how each ties an animation to its element. -/

namespace Pagewright

inductive Backend where
  | css
  | motion
  | script
deriving DecidableEq, Repr, Inhabited

namespace Backend

def all : List Backend := [css, motion, script]

def name : Backend → String
  | css => "css"
  | motion => "framerMotion"
  | script => "gsap"

def ofName? (name : String) : Option Backend := all.find? fun b => b.name = name

/-- The rendering where none is chosen. -/
def fallback : Backend := motion

/-- The rendering of a name, with the fallback for a name that is not known. -/
def ofName (name : String) : Backend := (ofName? name).getD fallback

def unknownMessage (name : String) : String := "Unknown animation backend: " ++ name

end Backend

/-- How a rendered animation attaches to its element in markup. -/
inductive Binding where
  /-- Attributes of a motion tag. -/
  | motionProps (attributes : String)
  /-- A class, which the rule of a stylesheet selects. -/
  | className (name : String)
  /-- An id, which a script looks up. -/
  | elementId (id : String)
deriving DecidableEq, Repr

namespace Animation

def snippet (a : Animation) : Backend → String
  | .css => a.stylesheet
  | .motion => a.motionSnippet
  | .script => a.scriptSnippet

def binding (a : Animation) : Backend → Binding
  | .css => .className (elementName a.elementId)
  | .motion => .motionProps a.motionProps.attributes
  | .script => .elementId (elementName a.elementId)

/-- All that a rendering produces, as a document tagged with its name. -/
def compiledDocument (a : Animation) (backend : Backend) : Json :=
  let parts : List (String × Json) := match backend with
    | .css => [("keyframes", .string a.keyframesRule), ("style", .string a.timingDeclarations)]
    | .motion => [("props", a.motionProps.toJson)]
    | .script =>
      [("steps", .array (a.scriptSteps.map ScriptStep.toDocument)),
        ("code", .string (a.scriptCode a.scriptSteps))]
  .object ([("backend", .string backend.name)] ++ parts ++
    [("implementation", .string (a.snippet backend))])

end Animation

end Pagewright
