import Pagewright.Animation.Backend
import Pagewright.Element.Basic
import Pagewright.Markup.Escape
import Pagewright.Style.Utility

/-! Elements as markup, with the animations bound to them. -/

namespace Pagewright

/-- The bindings of animations, by element id. -/
abbrev Bindings := Dict Binding

/-- Binds every animation to its element; a later one replaces an earlier one. -/
def Bindings.ofAnimations (animations : List Animation) (backend : Backend) : Bindings :=
  animations.foldl (fun bindings a => bindings.insert a.elementId (a.binding backend)) .empty

def ElementKind.tag : ElementKind → String
  | container => "div"
  | text => "p"
  | image => "Image"
  | button => "button"
  | form => "form"
  | input => "input"
  | custom => "div"

def attributeText (name value : String) : String := name ++ "=\"" ++ escapeAttribute value ++ "\""

namespace Element

/-- Motion props that apply to the element; images take none. -/
def motionAttributes? (e : Element) (binding : Option Binding) : Option String :=
  match binding with
  | some (.motionProps attributes) => if e.kind = .image then none else some attributes
  | _ => none

/-- The tag of an element, which is a motion tag if motion props apply. -/
def tag (e : Element) (binding : Option Binding) : String :=
  if (e.motionAttributes? binding).isSome then "motion." ++ e.kind.tag else e.kind.tag

/-- The class attribute: the utility classes, then the class of a bound animation. -/
def classAttribute (e : Element) (binding : Option Binding) : List String :=
  let bound := match binding with
    | some (.className name) => [name]
    | _ => []
  let classes := joinWith " " (classList e.styles ++ bound)
  if classes = "" then [] else [attributeText "className" classes]

/-- An attribute for a text that is there and not empty. -/
def optionalAttribute (name : String) (value : Option String) : List String :=
  match value with
  | none => []
  | some value => if value = "" then [] else [attributeText name value]

/-- An attribute for a prop, with a default for one that is not set. -/
def propAttribute (e : Element) (key default : String) : String :=
  attributeText key (((e.setProp? key).map Scalar.shown).getD default)

def kindAttributes (e : Element) : List String :=
  match e.kind with
  | .image =>
    optionalAttribute "src" e.src ++ optionalAttribute "alt" e.alt ++
      ["width=\x7b500\x7d", "height=\x7b300\x7d"]
  | .input =>
    e.propAttribute "type" "text" ::
      ((e.setProp? "placeholder").map fun value => attributeText "placeholder" value.shown).toList
  | .button => [e.propAttribute "type" "button"]
  | .form => ["onSubmit=\x7b(e) => e.preventDefault()\x7d"]
  | .container | .text | .custom => []

/-- The attributes that a bound animation puts last. -/
def bindingAttributes (e : Element) (binding : Option Binding) : List String :=
  match binding with
  | some (.elementId id) => [attributeText "id" id]
  | binding => (e.motionAttributes? binding).toList

def attributes (e : Element) (binding : Option Binding) : List String :=
  e.classAttribute binding ++ [attributeText "data-element-id" e.id] ++ e.kindAttributes ++
    e.bindingAttributes binding

/-- What stands between the tags of an element, given the markup of its children. Children are
set off on lines of their own. -/
def body (e : Element) (children : List String) : String :=
  let block := if children = [] then "" else "\n" ++ indentBlock (joinLines children) ++ "\n"
  match e.kind with
  | .text => escapeText (e.content.getD "")
  | .button => escapeText ((e.content.filter fun label => label ≠ "").getD "Button")
  | .custom => ((e.setProp? "component").map Scalar.shown).getD block
  | _ => block

/-- An element as markup, given the markup of its children. -/
def wrap (e : Element) (binding : Option Binding) (children : List String) : String :=
  let start := "<" ++ e.tag binding ++ " " ++ joinWith " " (e.attributes binding)
  if e.kind.isVoid then start ++ " />"
  else start ++ ">" ++ e.body children ++ "</" ++ e.tag binding ++ ">"

end Element

mutual

/-- An element and its descendants as markup. -/
def Element.markup (bindings : Bindings) : Element → String
  | e@⟨id, _, _, _, _, _, _, children, _⟩ =>
    e.wrap (bindings.get? id) (Forest.markup bindings children)

def Forest.markup (bindings : Bindings) : List Element → List String
  | [] => []
  | e :: rest => e.markup bindings :: Forest.markup bindings rest

end

end Pagewright
