import Pagewright.Proofs.Forest.Recursion

/-! Elements with the parents under which they are placed, and the check that compares these with
the recorded ones: it passes when all agree, and otherwise reports the first that does not. -/

namespace Pagewright

namespace Forest

mutual

/-- An element and its descendants in document order, each with the id of the element directly
around it. -/
def placedElement (parent : Option String) : Element → List (Option String × Element)
  | e@⟨id, _, _, _, _, _, _, children, _⟩ => (parent, e) :: placed (some id) children

/-- All elements of a forest in document order, each with the id of the element directly around it;
around the roots it is the given one. -/
def placed (parent : Option String) : List Element → List (Option String × Element)
  | [] => []
  | e :: rest => placedElement parent e ++ placed parent rest

end

theorem placed_cons (parent : Option String) (e : Element) (rest : Forest) :
    placed parent (e :: rest) =
      (parent, e) :: (placed (some e.id) e.children ++ placed parent rest) := by
  cases e
  simp only [placed, placedElement, List.cons_append]

theorem map_snd_placed (parent : Option String) (forest : Forest) :
    (placed parent forest).map Prod.snd = preorder forest := by
  induction forest using Forest.induction generalizing parent with
  | nil => simp [placed, preorder]
  | cons e rest below beside => simp [placed_cons, preorder_cons, below, beside]

/-- The roots are placed under the given parent, and everything else under the element whose child
it is. -/
theorem forall_placed_iff {parent : Option String} {forest : Forest}
    {p : Option String → Element → Prop} :
    (∀ entry ∈ placed parent forest, p entry.1 entry.2) ↔
      (∀ root ∈ forest, p parent root) ∧
        ∀ around ∈ preorder forest, ∀ child ∈ around.children, p (some around.id) child := by
  induction forest using Forest.induction generalizing parent with
  | nil => simp [placed, preorder]
  | cons e rest below beside =>
    simp only [placed_cons, preorder_cons, List.forall_mem_cons, List.forall_mem_append, below,
      beside]
    constructor
    · rintro ⟨he, ⟨hchildren, hbelow⟩, hrest, hbeside⟩
      exact ⟨⟨he, hrest⟩, hchildren, hbelow, hbeside⟩
    · rintro ⟨⟨he, hrest⟩, hchildren, hbelow, hbeside⟩
      exact ⟨he, ⟨hchildren, hbelow⟩, hrest, hbeside⟩

/-- The check reports the first element that is not placed where it records to be. -/
theorem checkParentsUnder_eq (parent : Option String) (forest : Forest) :
    checkParentsUnder parent forest =
      match (placed parent forest).find? fun entry => entry.2.parentId ≠ entry.1 with
      | none => .ok ()
      | some (actual, e) => .error (.parentMismatch e.id e.parentId actual) := by
  induction forest using Forest.induction generalizing parent with
  | nil => simp [placed, checkParentsUnder]
  | cons e rest below beside =>
    rw [checkParentsUnder, Element.checkParents_eq, placed_cons, List.find?_cons]
    by_cases h : e.parentId = parent
    · rw [if_pos h, below, beside, List.find?_append]
      simp only [h]
      cases (placed (some e.id) e.children).find? fun entry => entry.2.parentId ≠ entry.1 <;> simp
    · simp [h]

/-- An element whose recorded parent is not the actual one, the first of them in document order. -/
def IsFirstStray (forest : Forest) (actual : Option String) (e : Element) : Prop :=
  ∃ before after, placed none forest = before ++ (actual, e) :: after ∧
    (∀ entry ∈ before, entry.2.parentId = entry.1) ∧ e.parentId ≠ actual

theorem checkParents_eq_error_iff {forest : Forest} {fault : ForestError} :
    checkParents forest = .error fault ↔ ∃ actual e, IsFirstStray forest actual e ∧
      fault = .parentMismatch e.id e.parentId actual := by
  have hsome (actual : Option String) (e : Element) :
      (placed none forest).find? (fun entry => entry.2.parentId ≠ entry.1) = some (actual, e) ↔
        IsFirstStray forest actual e := by
    simp only [List.find?_eq_some_iff_append, IsFirstStray, decide_eq_true_eq, decide_not,
      Bool.not_not, Bool.not_eq_true', decide_eq_false_iff_not]
    exact ⟨fun ⟨hstray, before, after, hsplit, hbefore⟩ => ⟨before, after, hsplit, hbefore, hstray⟩,
      fun ⟨before, after, hsplit, hbefore, hstray⟩ => ⟨hstray, before, after, hsplit, hbefore⟩⟩
  simp only [← hsome]
  rw [checkParents, checkParentsUnder_eq]
  cases (placed none forest).find? fun entry => entry.2.parentId ≠ entry.1 with
  | none => simp
  | some entry =>
    obtain ⟨actual, e⟩ := entry
    constructor
    · rintro ⟨⟩
      exact ⟨actual, e, rfl, rfl⟩
    · rintro ⟨_, _, ⟨⟩, rfl⟩
      rfl

/-- The check passes when the roots record the given parent, and every child the element whose
child it is. -/
theorem checkParentsUnder_eq_ok_iff_records {parent : Option String} {forest : Forest} :
    checkParentsUnder parent forest = .ok () ↔ (∀ root ∈ forest, root.parentId = parent) ∧
      ∀ around ∈ preorder forest, ∀ child ∈ around.children, child.parentId = some around.id := by
  have hnone : (placed parent forest).find? (fun entry => entry.2.parentId ≠ entry.1) = none ↔
      ∀ entry ∈ placed parent forest, entry.2.parentId = entry.1 := by
    simp only [List.find?_eq_none, decide_eq_true_eq, ne_eq, Decidable.not_not]
  rw [← forall_placed_iff (p := fun actual e => e.parentId = actual), ← hnone, checkParentsUnder_eq]
  cases (placed parent forest).find? fun entry => entry.2.parentId ≠ entry.1 <;> simp

/-- The roots of a layout record no parent, and every child the element whose child it is. -/
def RecordsParents (forest : Forest) : Prop :=
  (∀ root ∈ forest, root.parentId = none) ∧
    ∀ around ∈ preorder forest, ∀ child ∈ around.children, child.parentId = some around.id

theorem checkParents_eq_ok_iff {forest : Forest} :
    checkParents forest = .ok () ↔ RecordsParents forest :=
  checkParentsUnder_eq_ok_iff_records

end Forest

end Pagewright
