import Pagewright.Element.Forest

/-! One induction for forests, and the equations that each walk of a forest satisfies at a root.
With these no proof has to go through the element and its children separately. -/

namespace Pagewright

/-- Induction over a forest: the children of the first root are a forest below, the other roots a
forest beside it. -/
@[elab_as_elim]
theorem Forest.induction {motive : Forest → Prop} (nil : motive [])
    (cons : ∀ e rest, motive e.children → motive rest → motive (e :: rest)) :
    ∀ forest, motive forest
  | [] => nil
  | ⟨_, _, _, _, _, _, _, children, _⟩ :: rest =>
    cons _ rest (Forest.induction nil cons children) (Forest.induction nil cons rest)

namespace Element

theorem preorder_eq (e : Element) : e.preorder = e :: Forest.preorder e.children := by
  cases e; simp only [preorder]

theorem size_eq (e : Element) : e.size = 1 + Forest.size e.children := by
  cases e; simp only [size]

theorem adopt_eq (parent : Option String) (e : Element) : e.adopt parent =
    { e with children := Forest.adopt (some e.id) e.children, parentId := parent } := by
  cases e; simp only [adopt]

theorem checkParents_eq (parent : Option String) (e : Element) : e.checkParents parent =
    if e.parentId = parent then Forest.checkParentsUnder (some e.id) e.children
    else .error (.parentMismatch e.id e.parentId parent) := by
  cases e; simp only [checkParents]

theorem find?_eq (id : String) (e : Element) :
    e.find? id = if e.id = id then some e else Forest.find? id e.children := by
  cases e; simp only [find?]

theorem modify?_eq (id : String) (f : Element → Element) (e : Element) : e.modify? id f =
    if e.id = id then some (f e)
    else (Forest.modify? id f e.children).map fun children => { e with children := children } := by
  cases e; simp only [modify?]

/-- Below an element the roots are its children, so taking is the same as from a forest. -/
theorem takeBelow?_eq (id : String) (e : Element) : e.takeBelow? id =
    (Forest.take? id e.children).map fun (found, children) =>
      (found, { e with children := children }) := by
  cases e with
  | mk _ _ _ _ _ _ _ children _ =>
    simp only [takeBelow?, Forest.take?]
    cases Forest.takeRoot? id children <;> rfl

end Element

namespace Forest

theorem preorder_cons (e : Element) (rest : Forest) :
    preorder (e :: rest) = e :: (preorder e.children ++ preorder rest) := by
  simp only [preorder, Element.preorder_eq, List.cons_append]

/-- Document order goes through every element once. -/
theorem length_preorder (forest : Forest) : (preorder forest).length = size forest := by
  induction forest using Forest.induction with
  | nil => simp [preorder, size]
  | cons e rest below beside =>
    simp only [preorder_cons, List.length_cons, List.length_append, below, beside, size,
      Element.size_eq]
    omega

theorem find?_cons (id : String) (e : Element) (rest : Forest) : find? id (e :: rest) =
    if e.id = id then some e else (find? id e.children).or (find? id rest) := by
  simp only [find?, Element.find?_eq]
  by_cases h : e.id = id
  · simp only [if_pos h]
  · simp only [if_neg h]
    cases find? id e.children <;> rfl

theorem modify?_cons (id : String) (f : Element → Element) (e : Element) (rest : Forest) :
    modify? id f (e :: rest) =
      if e.id = id then some (f e :: rest)
      else ((modify? id f e.children).map fun children => { e with children := children } :: rest).or
        ((modify? id f rest).map (e :: ·)) := by
  simp only [modify?, Element.modify?_eq]
  by_cases h : e.id = id
  · simp only [if_pos h]
  · simp only [if_neg h]
    cases modify? id f e.children <;> rfl

theorem takeBelow?_cons (id : String) (e : Element) (rest : Forest) :
    takeBelow? id (e :: rest) =
      ((take? id e.children).map fun (found, children) =>
        (found, { e with children := children } :: rest)).or
        ((takeBelow? id rest).map fun (found, rest) => (found, e :: rest)) := by
  simp only [takeBelow?, Element.takeBelow?_eq]
  cases take? id e.children <;> rfl

end Forest

end Pagewright
