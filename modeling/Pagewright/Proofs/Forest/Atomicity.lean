import Mathlib.Data.List.Nodup
import Pagewright.Proofs.Forest.Edits

/-!
Edits that fail and yet change the forest. The only one is a move in a forest with repeated ids:
it checks the first element with the id in document order, but takes out one that stands nearer to
the roots, and the target may go with that one.
-/

namespace Pagewright

namespace ForestEdit

variable {forest : Forest}

theorem find?_isSome_iff {id : String} {e : Element} :
    (e.find? id).isSome ↔ id ∈ Forest.ids [e] := by
  have h : e.find? id = Forest.find? id [e] := by
    simp only [Forest.find?]
    cases e.find? id <;> rfl
  rw [h, ← Option.ne_none_iff_isSome, ne_eq, Forest.find?_eq_none_iff, not_not]

/-- The check before a move passes when the target exists outside the subtree of the first element
with the id. -/
theorem checkTarget_eq_ok_iff {id target : String} :
    ((checkTarget id target).on forest).1 = .ok () ↔
      ∃ first, Forest.find? id forest = some first ∧ target ∉ Forest.ids [first] ∧
        target ∈ Forest.ids forest := by
  rw [checkTarget_on]
  cases Forest.find? id forest with
  | none => simp
  | some first =>
    have ht : target ∈ Forest.ids forest ↔ ¬ (Forest.find? target forest).isNone := by
      rw [Option.isNone_iff_eq_none, Forest.find?_eq_none_iff, not_not]
    simp only [Option.some.injEq, exists_eq_left', ← find?_isSome_iff, ht]
    split
    · next h => simp [h]
    · next h =>
      split
      · next h' => simp [h']
      · next h' => simp [h, h']

/-- A move whose check passes, while the element that is taken out has the target in its subtree
and no other element of that id is left. -/
def MoveLoses (id : String) (parent : Option String) (forest : Forest) : Prop :=
  ∃ target first taken rest, parent = some target ∧
    Forest.find? id forest = some first ∧ target ∉ Forest.ids [first] ∧
    Forest.take? id forest = some (taken, rest) ∧ target ∈ Forest.ids [taken] ∧
    target ∉ Forest.ids rest

theorem insert_atomic (parent : Option String) (index : Option Nat) (e : Element)
    (forest : Forest) : (insert parent index e).Atomic forest := by
  intro error h
  rw [insert_on] at h ⊢
  cases hi : Forest.insert? parent index (e.adopt parent) forest with
  | none => rfl
  | some changed => simp [hi] at h

theorem remove_atomic (id : String) (forest : Forest) : (remove id).Atomic forest := by
  intro error h
  rw [remove_on] at h ⊢
  cases ht : Forest.take? id forest with
  | none => rfl
  | some result => simp [ht] at h

theorem updateStyles_atomic (id : String) (styles : List (String × Scalar)) (forest : Forest) :
    (updateStyles id styles).Atomic forest := by
  intro error h
  rw [updateStyles_on] at h ⊢
  split at h
  · simp at h
  · rfl

/-- An insertion fails exactly below a parent that does not exist. -/
theorem insert_on_error {parent : Option String} {index : Option Nat} {e : Element}
    {error : ForestError} (h : ((insert parent index e).on forest).1 = .error error) :
    ∃ target, parent = some target ∧ target ∉ Forest.ids forest := by
  rw [insert_on] at h
  cases hi : Forest.insert? parent index (e.adopt parent) forest with
  | none => exact Forest.insert?_eq_none_iff.mp hi
  | some changed => simp [hi] at h

theorem insert_on_missing {target : String} {index : Option Nat} {e : Element}
    (h : target ∉ Forest.ids forest) :
    (insert (some target) index e).on forest = (.error (.elementNotFound target), forest) := by
  rw [insert_on, Forest.insert?_eq_none_iff.mpr ⟨target, rfl, h⟩]
  rfl

/-- What is taken out and what is left have all ids of the forest between them. -/
private theorem mem_ids_of_take? {id : String} {taken : Element} {rest : Forest}
    (h : Forest.take? id forest = some (taken, rest)) (other : String) :
    other ∈ Forest.ids forest ↔ other ∈ Forest.ids rest ∨ other ∈ Forest.ids [taken] := by
  have hc := (Forest.take?_some h).2.count_ids other
  rw [Forest.ids_nil, List.count_nil, Nat.add_zero] at hc
  simp only [← List.count_pos_iff]
  omega

private theorem take?_ne_self {id : String} {taken : Element} {rest : Forest}
    (h : Forest.take? id forest = some (taken, rest)) : rest ≠ forest := by
  intro he
  have hc := (Forest.take?_some h).2.count_ids taken.id
  rw [he, Forest.ids_nil, List.count_nil, Forest.ids_cons, List.count_cons_self] at hc
  omega

/-- In a forest with distinct ids the element that a move checks is the one it takes out. -/
theorem not_moveLoses_of_nodup (h : (Forest.ids forest).Nodup) (id : String)
    (parent : Option String) : ¬ MoveLoses id parent forest := by
  rintro ⟨target, first, taken, rest, _, hf, hout, ht, hin, _⟩
  obtain ⟨hfm, hfid⟩ := Forest.find?_some hf
  obtain ⟨htid, hrep⟩ := Forest.take?_some ht
  have htm := hrep.mem_preorder (List.mem_singleton_self taken)
  have he : first = taken := List.inj_on_of_nodup_map h hfm htm (hfid.trans htid.symm)
  exact hout (he ▸ hin)

theorem move_atomic_iff (id : String) (parent : Option String) (index : Option Nat)
    (forest : Forest) : (move id parent index).Atomic forest ↔ ¬ MoveLoses id parent forest := by
  constructor
  · rintro atomic ⟨target, first, taken, rest, rfl, hf, hout, ht, hin, hleft⟩
    have hok : ((checkTarget id target).on forest).1 = .ok () :=
      checkTarget_eq_ok_iff.mpr ⟨first, hf, hout, (mem_ids_of_take? ht target).mpr (.inr hin)⟩
    have hm : (move id (some target) index).on forest =
        (.error (.elementNotFound target), rest) := by
      rw [move_below_on, hok, ht]
      exact insert_on_missing hleft
    have hkept := atomic (.elementNotFound target) (by rw [hm])
    rw [hm] at hkept
    exact take?_ne_self ht hkept
  · intro keeps error h
    rcases move_on_cases id parent index forest with hs | ⟨taken, rest, hc, ht, hs⟩
    · exact hs
    · rw [hs] at h
      obtain ⟨target, rfl, hleft⟩ := insert_on_error h
      obtain ⟨first, hf, hout, hm⟩ := checkTarget_eq_ok_iff.mp (hc target rfl)
      have hin := ((mem_ids_of_take? ht target).mp hm).resolve_left hleft
      exact absurd ⟨target, first, taken, rest, rfl, hf, hout, ht, hin, hleft⟩ keeps

/-- Inserting, removing and changing styles are atomic on every forest. A move is, except when it
loses the subtree that it takes out; that needs repeated ids. -/
theorem edits_atomic_iff_move_keeps (forest : Forest) :
    (∀ parent index e, (insert parent index e).Atomic forest) ∧
    (∀ id, (remove id).Atomic forest) ∧
    (∀ id styles, (updateStyles id styles).Atomic forest) ∧
    (∀ id parent index, (move id parent index).Atomic forest ↔ ¬ MoveLoses id parent forest) ∧
    ((Forest.ids forest).Nodup → ∀ id parent, ¬ MoveLoses id parent forest) :=
  ⟨fun parent index e => insert_atomic parent index e forest,
    fun id => remove_atomic id forest,
    fun id styles => updateStyles_atomic id styles forest,
    fun id parent index => move_atomic_iff id parent index forest,
    not_moveLoses_of_nodup⟩

/-- Two elements with the id x, the first in document order inside a box, the second a root that
holds the target t. -/
private def twinLayout : Forest :=
  [(Element.bare "box" .container).withChild (Element.bare "x" .text),
    (Element.bare "x" .container).withChild (Element.bare "t" .container)]

/-- The move of x below t fails, and the root x is gone with everything in it. -/
theorem refused_move_loses_subtree :
    ((move "x" (some "t") none).on twinLayout).1 = .error (.elementNotFound "t") ∧
      Forest.ids twinLayout = ["box", "x", "x", "t"] ∧
      Forest.ids ((move "x" (some "t") none).on twinLayout).2 = ["box", "x"] ∧
      ¬ (move "x" (some "t") none).Atomic twinLayout := by
  have hfail : ((move "x" (some "t") none).on twinLayout).1 = .error (.elementNotFound "t") := rfl
  have hbefore : Forest.ids twinLayout = ["box", "x", "x", "t"] := rfl
  have hafter : Forest.ids ((move "x" (some "t") none).on twinLayout).2 = ["box", "x"] := rfl
  refine ⟨hfail, hbefore, hafter, ?_⟩
  intro atomic
  have h := congrArg Forest.ids (atomic _ hfail)
  rw [hbefore, hafter] at h
  exact absurd h (by decide)

end ForestEdit

end Pagewright
