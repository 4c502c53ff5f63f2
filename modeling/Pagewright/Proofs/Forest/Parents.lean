import Pagewright.Proofs.Forest.Replacement

/-! Recorded parents: adopting makes them right, and a replacement keeps them right as soon as the
new siblings fit wherever the old ones did. -/

namespace Pagewright

namespace Forest

/-- A forest passes the check below a parent when each root records that parent and each root's
children pass below it. -/
theorem checkParentsUnder_cons {parent : Option String} {e : Element} {rest : Forest} :
    checkParentsUnder parent (e :: rest) = .ok () ↔
      (e.parentId = parent ∧ checkParentsUnder (some e.id) e.children = .ok ()) ∧
        checkParentsUnder parent rest = .ok () := by
  simp only [checkParentsUnder, Element.checkParents_eq]
  by_cases h : e.parentId = parent
  · simp only [h, true_and]
    cases checkParentsUnder (some e.id) e.children <;> simp
  · simp [h]

theorem checkParentsUnder_nil (parent : Option String) : checkParentsUnder parent [] = .ok () := by
  simp only [checkParentsUnder]

theorem checkParentsUnder_append {parent : Option String} {left right : Forest} :
    checkParentsUnder parent (left ++ right) = .ok () ↔
      checkParentsUnder parent left = .ok () ∧ checkParentsUnder parent right = .ok () := by
  induction left with
  | nil => simp [checkParentsUnder_nil]
  | cons e rest ih => simp only [List.cons_append, checkParentsUnder_cons, ih, and_assoc]

/-- Adopted siblings record their actual parents, whatever they recorded before. -/
theorem checkParentsUnder_adopt (parent : Option String) (forest : Forest) :
    checkParentsUnder parent (adopt parent forest) = .ok () := by
  induction forest using Forest.induction generalizing parent with
  | nil => simp only [adopt, checkParentsUnder]
  | cons e rest below beside =>
    rw [adopt, checkParentsUnder_cons, Element.adopt_eq]
    exact ⟨⟨rfl, below (some e.id)⟩, beside parent⟩

/-- The check passes exactly on siblings that adopting does not change. -/
theorem checkParentsUnder_eq_ok_iff {parent : Option String} {forest : Forest} :
    checkParentsUnder parent forest = .ok () ↔ adopt parent forest = forest := by
  constructor
  · intro ok
    induction forest using Forest.induction generalizing parent with
    | nil => rw [adopt]
    | cons e rest below beside =>
      obtain ⟨⟨rfl, hchildren⟩, hrest⟩ := checkParentsUnder_cons.mp ok
      rw [adopt, Element.adopt_eq, below hchildren, beside hrest]
      cases e
      rfl
  · intro h
    rw [← h]
    exact checkParentsUnder_adopt parent forest

/-- What was recorded before does not matter to adopting. -/
theorem adopt_adopt (first parent : Option String) (forest : Forest) :
    adopt parent (adopt first forest) = adopt parent forest := by
  induction forest using Forest.induction generalizing first parent with
  | nil => simp only [adopt]
  | cons e rest below beside => simp only [adopt, Element.adopt_eq, below, beside]

/-- Adopting renames nothing. -/
@[simp] theorem ids_adopt (parent : Option String) (forest : Forest) :
    ids (adopt parent forest) = ids forest := by
  induction forest using Forest.induction generalizing parent with
  | nil => simp [adopt]
  | cons e rest below beside => simp [adopt, Element.adopt_eq, below, beside]

theorem adopt_singleton (parent : Option String) (e : Element) :
    adopt parent [e] = [e.adopt parent] := by
  simp only [adopt]

theorem Replaces.checkParentsUnder {old new forest changed : List Element}
    (h : Replaces old new forest changed)
    (fits : ∀ parent, Forest.checkParentsUnder parent old = .ok () →
      Forest.checkParentsUnder parent new = .ok ())
    {parent : Option String} (ok : Forest.checkParentsUnder parent forest = .ok ()) :
    Forest.checkParentsUnder parent changed = .ok () := by
  induction h generalizing parent with
  | here before after =>
    rw [checkParentsUnder_append, checkParentsUnder_append] at ok ⊢
    exact ⟨⟨ok.1.1, fits parent ok.1.2⟩, ok.2⟩
  | within before e after _ ih =>
    rw [checkParentsUnder_append, checkParentsUnder_cons] at ok ⊢
    exact ⟨ok.1, ⟨ok.2.1.1, ih ok.2.1.2⟩, ok.2.2⟩

end Forest

end Pagewright
