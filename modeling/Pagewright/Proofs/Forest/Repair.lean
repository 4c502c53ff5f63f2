import Pagewright.Proofs.Forest.Parents
import Pagewright.Proofs.Forest.Placed

/-!
Repairing recorded parents. A repair looks at where elements stand and never at what they record,
so forests that differ in recorded parents alone are all repaired to the same forest, and this is
the one among them that passes the check.
-/

namespace Pagewright

namespace Forest

/-- The same elements at the same places, whatever parents they record. -/
inductive SameButParents : Forest → Forest → Prop where
  | nil : SameButParents [] []
  | cons {e : Element} {parent : Option String} {children rest others : Forest} :
      SameButParents e.children children → SameButParents rest others →
      SameButParents (e :: rest) ({ e with children := children, parentId := parent } :: others)

namespace SameButParents

variable {forest other third : Forest}

theorem symm (h : SameButParents forest other) : SameButParents other forest := by
  induction h with
  | nil => exact .nil
  | @cons e _ _ _ _ _ _ below beside =>
    cases e
    exact .cons (e := ⟨_, _, _, _, _, _, _, _, _⟩) below beside

theorem trans (h : SameButParents forest other) (h' : SameButParents other third) :
    SameButParents forest third := by
  induction h generalizing third with
  | nil => exact h'
  | cons _ _ below beside =>
    cases h' with
    | cons hchildren hrest => exact .cons (below hchildren) (beside hrest)

theorem adopt (parent : Option String) (forest : Forest) :
    SameButParents forest (Forest.adopt parent forest) := by
  induction forest using Forest.induction generalizing parent with
  | nil =>
    rw [Forest.adopt]
    exact .nil
  | cons e rest below beside =>
    rw [Forest.adopt, Element.adopt_eq]
    exact .cons (below (some e.id)) (beside parent)

/-- Adopting does not look at recorded parents. -/
theorem adopt_eq (h : SameButParents forest other) (parent : Option String) :
    Forest.adopt parent forest = Forest.adopt parent other := by
  induction h generalizing parent with
  | nil => rfl
  | cons _ _ below beside =>
    rw [Forest.adopt, Forest.adopt, Element.adopt_eq, Element.adopt_eq, below, beside]

end SameButParents

/-- Forests become the same by adopting exactly when nothing but recorded parents sets them
apart. -/
theorem adopt_eq_adopt_iff {parent : Option String} {forest other : Forest} :
    adopt parent forest = adopt parent other ↔ SameButParents forest other := by
  constructor
  · intro h
    have hforest := SameButParents.adopt parent forest
    rw [h] at hforest
    exact hforest.trans (SameButParents.adopt parent other).symm
  · exact fun h => h.adopt_eq parent

end Forest

namespace ForestEdit

open Forest (SameButParents)

theorem syncParents_on (forest : Forest) :
    syncParents.on forest = (.ok (), Forest.adopt none forest) := rfl

theorem syncParents_on_eq_iff {forest repaired : Forest} :
    syncParents.on forest = (.ok (), repaired) ↔ Forest.adopt none forest = repaired := by
  rw [syncParents_on, Prod.mk.injEq, and_iff_right rfl]

/-- Repairing and checking recorded parents agree on every forest, also where ids are repeated. The
check passes exactly on the forests that a repair leaves as they are. A repair always succeeds; its
result records the actual parents, passes the check and is not changed by another repair; it
differs from the forest in recorded parents alone, and it is the result for exactly those forests
that differ from this one in recorded parents alone. -/
theorem repair_and_check_agree (forest : Forest) :
    (Forest.checkParents forest = .ok () ↔ syncParents.on forest = (.ok (), forest)) ∧
    ∃ repaired, syncParents.on forest = (.ok (), repaired) ∧
      Forest.RecordsParents repaired ∧ Forest.checkParents repaired = .ok () ∧
      syncParents.on repaired = (.ok (), repaired) ∧
      SameButParents forest repaired ∧
      ∀ other, syncParents.on other = (.ok (), repaired) ↔ SameButParents forest other := by
  have fixed {forest : Forest} :
      Forest.checkParents forest = .ok () ↔ syncParents.on forest = (.ok (), forest) := by
    rw [syncParents_on_eq_iff, Forest.checkParents, Forest.checkParentsUnder_eq_ok_iff]
  have hcheck : Forest.checkParents (Forest.adopt none forest) = .ok () :=
    Forest.checkParentsUnder_adopt none forest
  refine ⟨fixed, _, syncParents_on forest, Forest.checkParents_eq_ok_iff.mp hcheck, hcheck,
    fixed.mp hcheck, .adopt none forest, fun other => ?_⟩
  rw [syncParents_on_eq_iff, eq_comm, Forest.adopt_eq_adopt_iff]

end ForestEdit

end Pagewright
