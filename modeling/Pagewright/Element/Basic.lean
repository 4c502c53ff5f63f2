import Pagewright.Dict
import Pagewright.Scalar

/-! Elements of a page, and the walks through an element and its descendants in document order. -/

namespace Pagewright

inductive ElementKind where
  | container
  | text
  | image
  | button
  | form
  | input
  | custom
deriving DecidableEq, Repr, Inhabited

namespace ElementKind

def all : List ElementKind := [container, text, image, button, form, input, custom]

def name : ElementKind → String
  | container => "container"
  | text => "text"
  | image => "image"
  | button => "button"
  | form => "form"
  | input => "input"
  | custom => "custom"

/-- Kinds that need code in the browser. -/
def isInteractive (kind : ElementKind) : Bool := kind = button || kind = form || kind = input

/-- Kinds that have neither content nor children in markup. -/
def isVoid (kind : ElementKind) : Bool := kind = image || kind = input

end ElementKind

/-- A node of the element tree. The parent id is a recorded copy of the position in the tree. -/
structure Element where
  id : String
  kind : ElementKind
  content : Option String
  src : Option String
  alt : Option String
  styles : Dict Scalar
  props : Dict Scalar
  children : List Element
  parentId : Option String

abbrev Forest := List Element

namespace Element

def bare (id : String) (kind : ElementKind) : Element :=
  ⟨id, kind, none, none, none, .empty, .empty, [], none⟩

instance : Inhabited Element := ⟨bare "" .container⟩

/-- Sets the source of an image together with the text that stands in for it. -/
def withImage (e : Element) (src alt : String) : Element :=
  { e with src := some src, alt := some alt }

/-- Appends a child and records this element as its parent. -/
def withChild (e child : Element) : Element :=
  { e with children := e.children ++ [{ child with parentId := some e.id }] }

def propText? (e : Element) (key : String) : Option String := (e.props.get? key).bind Scalar.asText?

/-- A prop that counts as set. -/
def setProp? (e : Element) (key : String) : Option Scalar :=
  (e.props.get? key).filter Scalar.isTruthy

end Element

mutual

/-- An element and its descendants, parents first and siblings in order. -/
def Element.preorder : Element → List Element
  | e@⟨_, _, _, _, _, _, _, children, _⟩ => e :: Forest.preorder children

/-- All elements of a forest, parents first and siblings in order. -/
def Forest.preorder : List Element → List Element
  | [] => []
  | e :: rest => e.preorder ++ Forest.preorder rest

end

mutual

def Element.size : Element → Nat
  | ⟨_, _, _, _, _, _, _, children, _⟩ => 1 + Forest.size children

def Forest.size : List Element → Nat
  | [] => 0
  | e :: rest => e.size + Forest.size rest

end

mutual

def Element.anyNode (test : Element → Bool) : Element → Bool
  | e@⟨_, _, _, _, _, _, _, children, _⟩ => test e || Forest.anyNode test children

/-- Whether some element of the forest satisfies a test, at any depth. -/
def Forest.anyNode (test : Element → Bool) : List Element → Bool
  | [] => false
  | e :: rest => e.anyNode test || Forest.anyNode test rest

end

def Forest.containsKind (kind : ElementKind) (forest : Forest) : Bool :=
  Forest.anyNode (fun e => e.kind = kind) forest

def Forest.containsInteractive (forest : Forest) : Bool :=
  Forest.anyNode (fun e => e.kind.isInteractive) forest

end Pagewright
