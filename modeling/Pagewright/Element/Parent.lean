import Pagewright.Element.Basic
import Pagewright.Text.Quoted

/-!
Recorded parent ids and element ids. Both checks go through the tree in document order and report
the first fault they meet.
-/

namespace Pagewright

inductive ForestError where
  | elementNotFound (id : String)
  | duplicateId (id : String)
  | parentMismatch (id : String) (recorded actual : Option String)
  | moveIntoDescendant (id target : String)
deriving DecidableEq, Repr

def ForestError.message : ForestError → String
  | elementNotFound id => "Element not found: " ++ id
  | duplicateId id => "Duplicate element id: " ++ id
  | parentMismatch id recorded actual =>
    "Element " ++ id ++ " records parent " ++ quotedOption recorded ++ " but sits under " ++
      quotedOption actual
  | moveIntoDescendant id target =>
    "Cannot move element " ++ id ++ " into its own subtree (" ++ target ++ ")"

mutual

/-- Records a parent in an element, and the actual parents in all its descendants. -/
def Element.adopt (parent : Option String) : Element → Element
  | e@⟨id, _, _, _, _, _, _, children, _⟩ =>
    { e with children := Forest.adopt (some id) children, parentId := parent }

/-- Records one parent in all roots, and the actual parents below them. -/
def Forest.adopt (parent : Option String) : List Element → List Element
  | [] => []
  | e :: rest => e.adopt parent :: Forest.adopt parent rest

end

mutual

/-- Checks that an element records the given parent and its descendants record theirs. -/
def Element.checkParents (parent : Option String) : Element → Except ForestError Unit
  | ⟨id, _, _, _, _, _, _, children, recorded⟩ =>
    if recorded = parent then Forest.checkParentsUnder (some id) children
    else .error (.parentMismatch id recorded parent)

/-- Checks siblings from left to right, each with its descendants. -/
def Forest.checkParentsUnder (parent : Option String) : List Element → Except ForestError Unit
  | [] => .ok ()
  | e :: rest =>
    match e.checkParents parent with
    | .ok () => Forest.checkParentsUnder parent rest
    | .error fault => .error fault

end

/-- Checks every recorded parent of a layout; roots record none. -/
def Forest.checkParents (forest : Forest) : Except ForestError Unit :=
  Forest.checkParentsUnder none forest

def firstRepeat? (seen : List String) : List String → Option String
  | [] => none
  | id :: rest => if id ∈ seen then some id else firstRepeat? (id :: seen) rest

/-- The ids in document order, when they are distinct. -/
def Forest.collectIds (forest : Forest) : Except ForestError (List String) :=
  let ids := (Forest.preorder forest).map Element.id
  match firstRepeat? [] ids with
  | some id => .error (.duplicateId id)
  | none => .ok ids

end Pagewright
