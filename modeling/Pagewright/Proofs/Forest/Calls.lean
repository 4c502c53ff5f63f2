import Pagewright.Proofs.Forest.Edits
import Pagewright.Proofs.Forest.Ids

/-! Sequences of editing calls on a forest. Recorded parents stay right under all of them, and
ids stay distinct as long as every inserted subtree brings new ones. -/

namespace Pagewright

/-- A call of an editing operation with its arguments. -/
inductive ForestCall where
  | insert (parent : Option String) (index : Option Nat) (e : Element)
  | remove (id : String)
  | move (id : String) (parent : Option String) (index : Option Nat)
  | updateStyles (id : String) (styles : List (String × Scalar))
  | syncParents

namespace ForestCall

/-- The forest after a call, whether the call succeeds or fails. -/
def run : ForestCall → Forest → Forest
  | insert parent index e, forest => ((ForestEdit.insert parent index e).on forest).2
  | remove id, forest => ((ForestEdit.remove id).on forest).2
  | move id parent index, forest => ((ForestEdit.move id parent index).on forest).2
  | updateStyles id styles, forest => ((ForestEdit.updateStyles id styles).on forest).2
  | syncParents, forest => (ForestEdit.syncParents.on forest).2

/-- An inserted subtree has distinct ids, and none that the forest has already. -/
def Fresh : ForestCall → Forest → Prop
  | insert _ _ e, forest => (Forest.ids [e]).Nodup ∧ ∀ id ∈ Forest.ids [e], id ∉ Forest.ids forest
  | _, _ => True

variable {forest : Forest}

/-- No call makes a recorded parent wrong. -/
theorem run_checkParents (call : ForestCall) (forest : Forest)
    (ok : Forest.checkParents forest = .ok ()) : Forest.checkParents (call.run forest) = .ok () := by
  have inserted (parent : Option String) (index : Option Nat) (e : Element) {forest : Forest}
      (ok : Forest.checkParents forest = .ok ()) :
      Forest.checkParents ((ForestEdit.insert parent index e).on forest).2 = .ok () := by
    rw [ForestEdit.insert_on]
    cases h : Forest.insert? parent index (e.adopt parent) forest with
    | none => exact ok
    | some changed =>
      have he := Forest.checkParentsUnder_adopt parent [e]
      rw [Forest.adopt_singleton] at he
      exact Forest.checkParents_insert? h he ok
  have taken {id : String} {found : Element} {rest forest : Forest}
      (h : Forest.take? id forest = some (found, rest))
      (ok : Forest.checkParents forest = .ok ()) : Forest.checkParents rest = .ok () :=
    (Forest.take?_some h).2.checkParentsUnder
      (fun parent _ => Forest.checkParentsUnder_nil parent) ok
  cases call with
  | insert parent index e => exact inserted parent index e ok
  | remove id =>
    rw [run, ForestEdit.remove_on]
    cases h : Forest.take? id forest with
    | none => exact ok
    | some result => exact taken h ok
  | move id parent index =>
    rw [run]
    rcases ForestEdit.move_on_cases id parent index forest with h | ⟨found, rest, _, h, he⟩
    · rw [h]
      exact ok
    · rw [he]
      exact inserted parent index found (taken h ok)
  | updateStyles id styles =>
    rw [run, ForestEdit.updateStyles_on]
    split
    · next h =>
      obtain ⟨e, _, hrep⟩ := Forest.modify?_replaces h
      refine hrep.checkParentsUnder ?_ ok
      intro parent hp
      rw [Forest.checkParentsUnder_cons] at hp ⊢
      exact hp
    · exact ok
  | syncParents => exact Forest.checkParentsUnder_adopt none forest

private theorem insert_ids_nodup (parent : Option String) (index : Option Nat) (e : Element)
    (h : (Forest.ids forest ++ Forest.ids [e]).Nodup) :
    (Forest.ids ((ForestEdit.insert parent index e).on forest).2).Nodup := by
  have he : Forest.ids [e.adopt parent] = Forest.ids [e] := by
    rw [← Forest.adopt_singleton, Forest.ids_adopt]
  rw [List.nodup_iff_count] at h ⊢
  intro id
  have hid := h id
  rw [List.count_append] at hid
  rw [ForestEdit.insert_on]
  cases hi : Forest.insert? parent index (e.adopt parent) forest with
  | none =>
    change (Forest.ids forest).count id ≤ 1
    omega
  | some changed =>
    have hc := (Forest.insert?_replaces hi).count_ids id
    rw [he, Forest.ids_nil, List.count_nil] at hc
    change (Forest.ids changed).count id ≤ 1
    omega

/-- Counted by ids, a forest is what is taken out of it and what is left. -/
private theorem take_count_ids {id : String} {found : Element} {rest : Forest}
    (h : Forest.take? id forest = some (found, rest)) (other : String) :
    (Forest.ids forest).count other =
      (Forest.ids rest).count other + (Forest.ids [found]).count other := by
  simpa using (Forest.take?_some h).2.count_ids other

/-- A call that inserts only new ids keeps ids distinct. -/
theorem run_ids_nodup (call : ForestCall) (forest : Forest) (h : (Forest.ids forest).Nodup)
    (fresh : call.Fresh forest) : (Forest.ids (call.run forest)).Nodup := by
  cases call with
  | insert parent index e =>
    refine insert_ids_nodup parent index e (List.nodup_append.mpr ⟨h, fresh.1, ?_⟩)
    intro a ha b hb hab
    exact fresh.2 b hb (hab ▸ ha)
  | remove id =>
    rw [run, ForestEdit.remove_on]
    cases ht : Forest.take? id forest with
    | none => exact h
    | some result =>
      rw [List.nodup_iff_count] at h ⊢
      intro other
      have := take_count_ids ht other
      have := h other
      change (Forest.ids result.2).count other ≤ 1
      omega
  | move id parent index =>
    rw [run]
    rcases ForestEdit.move_on_cases id parent index forest with hm | ⟨found, rest, _, ht, hm⟩
    · rw [hm]
      exact h
    · rw [hm]
      apply insert_ids_nodup
      rw [List.nodup_iff_count] at h ⊢
      intro other
      rw [List.count_append, ← take_count_ids ht other]
      exact h other
  | updateStyles id styles =>
    rw [run, ForestEdit.updateStyles_on]
    split
    · next changed hm =>
      obtain ⟨e, _, hrep⟩ := Forest.modify?_replaces hm
      rw [List.nodup_iff_count] at h ⊢
      intro other
      have hc := hrep.count_ids other
      have he : Forest.ids [{ e with styles := e.styles.insertAll styles }] = Forest.ids [e] := by
        simp
      rw [he] at hc
      have := h other
      change (Forest.ids changed).count other ≤ 1
      omega
    · exact h
  | syncParents =>
    change (Forest.ids (Forest.adopt none forest)).Nodup
    rwa [Forest.ids_adopt]

/-- Whatever calls are made on a forest that passes both checks, and whichever of them fail, the
forest passes both checks after every call. Recorded parents need nothing but that they were right
before; ids need inserted subtrees that are fresh when they are inserted. -/
theorem layout_checks_hold_throughout (forest : Forest) (calls : List ForestCall) :
    (Forest.checkParents forest = .ok () →
      ∀ after ∈ Edit.trace run forest calls, Forest.checkParents after = .ok ()) ∧
    ((∃ found, Forest.collectIds forest = .ok found) → Edit.EachCall run Fresh forest calls →
      ∀ after ∈ Edit.trace run forest calls, ∃ found, Forest.collectIds after = .ok found) := by
  constructor
  · intro ok
    exact Edit.trace_preserves run_checkParents ok calls
  · intro distinct fresh
    simp only [Forest.exists_collectIds_iff] at distinct ⊢
    exact Edit.trace_invariant run_ids_nodup distinct fresh

/-- A layout of a banner with a title and a form, and a footer behind it. -/
private def bannerLayout : Forest :=
  let title := Element.bare "title" .text
  let form := (Element.bare "form" .form).withChild (Element.bare "email" .input)
  [((Element.bare "hero" .container).withChild title).withChild form,
    Element.bare "footer" .container]

/-- Calls of all kinds, one of them a move that is refused. The inserted element records a parent
that it does not have. -/
private def bannerCalls : List ForestCall :=
  [.insert (some "footer") (some 0) { Element.bare "copy" .text with parentId := some "hero" },
    .move "hero" (some "email") none, .move "form" (some "footer") (some 7),
    .updateStyles "copy" [("color", .text "red")], .remove "hero", .syncParents]

theorem layout_checks_hold_on_banner :
    Forest.checkParents bannerLayout = .ok () ∧
    (∃ found, Forest.collectIds bannerLayout = .ok found) ∧
    Edit.EachCall run Fresh bannerLayout bannerCalls ∧
    (∀ after ∈ Edit.trace run bannerLayout bannerCalls, Forest.checkParents after = .ok ()) ∧
    ∀ after ∈ Edit.trace run bannerLayout bannerCalls,
      ∃ found, Forest.collectIds after = .ok found := by
  have ok : Forest.checkParents bannerLayout = .ok () := rfl
  have distinct : ∃ found, Forest.collectIds bannerLayout = .ok found := ⟨_, rfl⟩
  have fresh : Edit.EachCall run Fresh bannerLayout bannerCalls :=
    ⟨⟨by decide, by decide⟩, trivial, trivial, trivial, trivial, trivial, trivial⟩
  have h := layout_checks_hold_throughout bannerLayout bannerCalls
  exact ⟨ok, distinct, fresh, h.1 ok, h.2 distinct fresh⟩

end ForestCall

end Pagewright
