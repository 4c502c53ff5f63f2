import Pagewright.Edit
import Pagewright.Element.Parent

/-!
Edits of a forest. Elements are addressed by id: finding and changing take the first one in
document order, while removing looks at all siblings before it descends.
-/

namespace Pagewright

mutual

/-- The first element with an id, in document order, among an element and its descendants. -/
def Element.find? (id : String) : Element → Option Element
  | e@⟨eid, _, _, _, _, _, _, children, _⟩ =>
    if eid = id then some e else Forest.find? id children

/-- The first element with an id, in document order. -/
def Forest.find? (id : String) : List Element → Option Element
  | [] => none
  | e :: rest =>
    match e.find? id with
    | some found => some found
    | none => Forest.find? id rest

end

mutual

def Element.modify? (id : String) (f : Element → Element) : Element → Option Element
  | e@⟨eid, _, _, _, _, _, _, children, _⟩ =>
    if eid = id then some (f e)
    else (Forest.modify? id f children).map fun children => { e with children := children }

/-- Changes the first element with an id, if there is one. -/
def Forest.modify? (id : String) (f : Element → Element) : List Element → Option (List Element)
  | [] => none
  | e :: rest =>
    match e.modify? id f with
    | some changed => some (changed :: rest)
    | none => (Forest.modify? id f rest).map (e :: ·)

end

/-- Takes the first root with an id out of a list of siblings. -/
def Forest.takeRoot? (id : String) : List Element → Option (Element × List Element)
  | [] => none
  | e :: rest =>
    if e.id = id then some (e, rest)
    else (Forest.takeRoot? id rest).map fun (found, rest) => (found, e :: rest)

mutual

/-- Takes an element with an id out of the descendants of an element. -/
def Element.takeBelow? (id : String) : Element → Option (Element × Element)
  | e@⟨_, _, _, _, _, _, _, children, _⟩ =>
    match Forest.takeRoot? id children with
    | some (found, children) => some (found, { e with children := children })
    | none =>
      (Forest.takeBelow? id children).map fun (found, children) =>
        (found, { e with children := children })

/-- Takes an element with an id out of the descendants of the roots, root by root. -/
def Forest.takeBelow? (id : String) : List Element → Option (Element × List Element)
  | [] => none
  | e :: rest =>
    match e.takeBelow? id with
    | some (found, changed) => some (found, changed :: rest)
    | none => (Forest.takeBelow? id rest).map fun (found, rest) => (found, e :: rest)

end

/-- Takes an element with an id out of a forest; roots come before all their descendants. -/
def Forest.take? (id : String) (forest : Forest) : Option (Element × Forest) :=
  match Forest.takeRoot? id forest with
  | some result => some result
  | none => Forest.takeBelow? id forest

/-- Puts an element at an index among siblings, or at the end without an index or beyond it. -/
def Forest.place (index : Option Nat) (e : Element) (siblings : Forest) : Forest :=
  siblings.insertIdx (min (index.getD siblings.length) siblings.length) e

/-- Puts an element under a parent, or among the roots, when the parent exists. -/
def Forest.insert? (parent : Option String) (index : Option Nat) (e : Element) (forest : Forest) :
    Option Forest :=
  match parent with
  | none => some (Forest.place index e forest)
  | some id =>
    Forest.modify? id (fun p => { p with children := Forest.place index e p.children }) forest

abbrev ForestEdit (α : Type) : Type := Edit Forest ForestError α

namespace ForestEdit

/-- Inserts an element and records its actual parents throughout. -/
def insert (parent : Option String) (index : Option Nat) (e : Element) : ForestEdit Unit := do
  let forest ← get
  let changed ← Edit.orFail (.elementNotFound (parent.getD ""))
    (forest.insert? parent index (e.adopt parent))
  set changed

def remove (id : String) : ForestEdit Element := do
  let forest ← get
  let (removed, rest) ← Edit.orFail (.elementNotFound id) (forest.take? id)
  set rest
  return removed

/-- Fails unless the element exists and the target exists outside its subtree. -/
def checkTarget (id target : String) : ForestEdit Unit := do
  let forest ← get
  let moving ← Edit.orFail (.elementNotFound id) (Forest.find? id forest)
  if (moving.find? target).isSome then throw (.moveIntoDescendant id target)
  if (Forest.find? target forest).isNone then throw (.elementNotFound target)

/-- Moves an element with its subtree under another parent, or among the roots. -/
def move (id : String) (parent : Option String) (index : Option Nat) : ForestEdit Unit := do
  if let some target := parent then checkTarget id target
  let e ← remove id
  insert parent index e

def updateStyles (id : String) (styles : List (String × Scalar)) : ForestEdit Unit := do
  let forest ← get
  let changed ← Edit.orFail (.elementNotFound id)
    (Forest.modify? id (fun e => { e with styles := e.styles.insertAll styles }) forest)
  set changed

/-- Records the actual parent in every element. -/
def syncParents : ForestEdit Unit := modify (Forest.adopt none)

end ForestEdit

end Pagewright
