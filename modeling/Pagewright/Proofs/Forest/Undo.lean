import Pagewright.Proofs.Forest.Atomicity
import Pagewright.Proofs.Forest.Places
import Pagewright.Proofs.Forest.Repair

/-!
Undoing edits of a forest: removing what was inserted, inserting what was removed at its old place,
and moving back. Each gives the forest of before, in every part.
-/

namespace Pagewright

/-- What a layout holds once an element stands in it under a parent. Only recorded parents may
differ from those of the element, and they are the actual ones: the parent itself, and on every
child the element whose child it is. -/
structure Element.SettledAs (e : Element) (parent : Option String) (settled : Element) : Prop where
  same : Forest.SameButParents [e] [settled]
  own : settled.parentId = parent
  below : ∀ around ∈ Forest.preorder [settled], ∀ child ∈ around.children,
    child.parentId = some around.id

theorem Element.settledAs_adopt (parent : Option String) (e : Element) :
    e.SettledAs parent (e.adopt parent) := by
  have hsame := Forest.SameButParents.adopt parent [e]
  obtain ⟨hroots, hbelow⟩ :=
    Forest.checkParentsUnder_eq_ok_iff_records.mp (Forest.checkParentsUnder_adopt parent [e])
  rw [Forest.adopt_singleton] at hsame hroots hbelow
  exact ⟨hsame, hroots _ List.mem_cons_self, hbelow⟩

theorem Element.adopt_adopt (first parent : Option String) (e : Element) :
    (e.adopt first).adopt parent = e.adopt parent := by
  simpa only [Forest.adopt_singleton, List.cons.injEq, and_true] using
    Forest.adopt_adopt first parent [e]

namespace Forest

variable {parent : Option String} {index : Nat} {e : Element} {forest rest : Forest}

theorem ids_singleton_adopt (parent : Option String) (e : Element) :
    ids [e.adopt parent] = ids [e] := by
  rw [← adopt_singleton, ids_adopt]

/-- Where an element fills a gap in a forest of right parents, it records the parent it has. -/
theorem Gap.adopt_eq {top : Option String} (h : Gap parent index e top rest forest)
    (ok : checkParentsUnder top forest = .ok ()) : e.adopt parent = e := by
  induction h with
  | here before after _ =>
    rw [checkParentsUnder_append, checkParentsUnder_cons] at ok
    have hsingle : checkParentsUnder parent [e] = .ok () :=
      checkParentsUnder_cons.mpr ⟨ok.2.1, checkParentsUnder_nil parent⟩
    rw [checkParentsUnder_eq_ok_iff, adopt_singleton] at hsingle
    exact List.head_eq_of_cons_eq hsingle
  | within before p after _ ih =>
    rw [checkParentsUnder_append, checkParentsUnder_cons] at ok
    exact ih ok.2.1.2

/-- Without repeated ids an element that is taken out has no id in common with what is left. -/
theorem Gap.nodup_ids {top : Option String} (h : Gap parent index e top rest forest)
    (hnodup : (ids forest).Nodup) : (ids rest).Nodup ∧ ∀ id ∈ ids rest, id ∉ ids [e] := by
  have hcount (id : String) : (ids rest).count id + (ids [e]).count id ≤ 1 := by
    rw [← h.count_ids]
    exact List.nodup_iff_count_le_one.mp hnodup id
  constructor
  · refine List.nodup_iff_count_le_one.mpr fun id => ?_
    have := hcount id
    omega
  · intro id hrest he
    have := hcount id
    have := List.count_pos_iff.mpr hrest
    have := List.count_pos_iff.mpr he
    omega

/-- In a forest with distinct ids an element is taken from the one place where it stands. -/
theorem StandsAt.take?_eq (h : StandsAt parent index e forest) (hnodup : (ids forest).Nodup) :
    ∃ rest, take? e.id forest = some (e, rest) ∧ Gap parent index e none rest forest := by
  obtain ⟨rest, hgap⟩ := Gap.of_standsAt h
  have hnew : e.id ∉ ids rest := fun hm => (hgap.nodup_ids hnodup).2 e.id hm (by simp)
  exact ⟨rest, hgap.take?_eq hnew, hgap⟩

/-- Inserting an element and then taking its id gives it back, with its parents recorded. -/
theorem take?_insert? {position : Option Nat} {changed : Forest}
    (h : insert? parent position (e.adopt parent) forest = some changed)
    (hnew : e.id ∉ ids forest) : take? e.id changed = some (e.adopt parent, forest) := by
  obtain ⟨index, hgap⟩ := Gap.of_insert? h
  have hid : (e.adopt parent).id = e.id := by rw [Element.adopt_eq]
  rw [← hid] at hnew ⊢
  exact hgap.take?_eq hnew

end Forest

namespace ForestEdit

open Forest (ids StandsAt Gap)

variable {parent target : Option String} {index : Nat} {position : Option Nat} {id : String}
  {e : Element} {forest rest : Forest}

theorem remove_insert (h : ∀ id, parent = some id → id ∈ ids forest) (hnew : e.id ∉ ids forest) :
    ∃ changed, (insert parent position e).on forest = (.ok (), changed) ∧
      (remove e.id).on changed = (.ok (e.adopt parent), forest) := by
  rw [insert_on]
  cases hi : Forest.insert? parent position (e.adopt parent) forest with
  | none =>
    obtain ⟨id, hid, hm⟩ := Forest.insert?_eq_none_iff.mp hi
    exact absurd (h id hid) hm
  | some changed =>
    refine ⟨changed, rfl, ?_⟩
    rw [remove_on, Forest.take?_insert? hi hnew]

theorem insert_of_gap (hgap : Gap parent index e none rest forest)
    (hnodup : (ids rest).Nodup) (hadopt : e.adopt parent = e) :
    (insert parent (some index) e).on rest = (.ok (), forest) := by
  rw [insert_on, hadopt, hgap.insert?_eq hnodup]

/-- What is removed is put back by an insertion at the place where it stood. -/
theorem insert_remove (hnodup : (ids forest).Nodup) (ok : Forest.checkParents forest = .ok ())
    (h : (remove id).on forest = (.ok e, rest)) :
    (∃ parent index, StandsAt parent index e forest) ∧
      ∀ parent index, StandsAt parent index e forest →
        (insert parent (some index) e).on rest = (.ok (), forest) := by
  have ht : Forest.take? id forest = some (e, rest) := by
    rw [remove_on] at h
    split at h
    · next removed left ht =>
      obtain ⟨hremoved, rfl⟩ := Prod.mk.inj h
      rw [ht, Except.ok.inj hremoved]
    · nomatch (Prod.mk.inj h).1
  obtain ⟨hid, hrep⟩ := Forest.take?_some ht
  constructor
  · obtain ⟨parent, index, hgap⟩ := Gap.of_replaces hrep none
    exact ⟨parent, index, hgap.standsAt⟩
  · intro parent index hplace
    obtain ⟨left, htaken, hgap⟩ := hplace.take?_eq hnodup
    rw [hid, ht] at htaken
    obtain ⟨-, rfl⟩ := Prod.mk.inj (Option.some.inj htaken)
    exact insert_of_gap hgap (hgap.nodup_ids hnodup).1 (hgap.adopt_eq ok)

/-- A move that succeeds is a removal and an insertion. -/
theorem move_on_ok (h : ((move id target position).on forest).1 = .ok ()) :
    ∃ taken rest changed, Forest.take? id forest = some (taken, rest) ∧
      Forest.insert? target position (taken.adopt target) rest = some changed ∧
      (move id target position).on forest = (.ok (), changed) := by
  have htake : Forest.take? id forest ≠ none := by
    intro ht
    cases target with
    | none =>
      rw [move_root_on, ht] at h
      cases h
    | some target =>
      rw [move_below_on, ht] at h
      split at h <;> cases h
  obtain ⟨⟨taken, rest⟩, ht⟩ := Option.ne_none_iff_exists'.mp htake
  have hs : (move id target position).on forest = (insert target position taken).on rest := by
    cases target with
    | none => rw [move_root_on, ht]
    | some target =>
      rw [move_below_on, ht] at h ⊢
      cases hc : ((checkTarget id target).on forest).1 with
      | error fault =>
        rw [hc] at h
        cases h
      | ok _ => rfl
  rw [hs, insert_on] at h ⊢
  cases hi : Forest.insert? target position (taken.adopt target) rest with
  | none =>
    rw [hi] at h
    cases h
  | some changed => exact ⟨taken, rest, changed, ht, hi, rfl⟩

/-- A move is the insertion of what it takes out, when its target is outside of that. -/
theorem move_on_of_take? {taken : Element} (hfind : ∀ t, target = some t →
      Forest.find? id forest = some taken ∧ t ∉ ids [taken] ∧ t ∈ ids forest)
    (ht : Forest.take? id forest = some (taken, rest)) :
    (move id target position).on forest = (insert target position taken).on rest := by
  cases target with
  | none => rw [move_root_on, ht]
  | some t =>
    have hcheck : ((checkTarget id t).on forest).1 = .ok () :=
      checkTarget_eq_ok_iff.mpr ⟨taken, hfind t rfl⟩
    rw [move_below_on, hcheck, ht]

/-- What has been moved is brought back by a move to the place where it stood. -/
theorem move_back (hnodup : (ids forest).Nodup) (ok : Forest.checkParents forest = .ok ())
    (hplace : StandsAt parent index e forest)
    (h : ((move e.id target position).on forest).1 = .ok ()) :
    (move e.id parent (some index)).on ((move e.id target position).on forest).2 =
      (.ok (), forest) := by
  obtain ⟨taken, rest, changed, ht, hi, hs⟩ := move_on_ok h
  obtain ⟨left, htaken, hgap⟩ := hplace.take?_eq hnodup
  rw [ht] at htaken
  obtain ⟨rfl, rfl⟩ := Prod.mk.inj (Option.some.inj htaken)
  obtain ⟨hrest, hapart⟩ := hgap.nodup_ids hnodup
  have hnew : taken.id ∉ ids rest := fun hm => hapart _ hm (by simp)
  have hback : Forest.take? taken.id changed = some (taken.adopt target, rest) :=
    Forest.take?_insert? hi hnew
  -- The parent is in what was left, so the way back is not into the element itself.
  have hparent : ∀ p, parent = some p →
      Forest.find? taken.id changed = some (taken.adopt target) ∧
        p ∉ ids [taken.adopt target] ∧ p ∈ ids changed := by
    rintro p rfl
    have hp : p ∈ ids rest := hgap.parent_mem_ids nofun
    obtain ⟨place, hfilled⟩ := Gap.of_insert? hi
    have hcount := hfilled.count_ids
    simp only [Forest.ids_singleton_adopt, ← hgap.count_ids] at hcount
    have hdistinct : (ids changed).Nodup :=
      (List.perm_iff_count.mpr hcount).nodup_iff.mpr hnodup
    have hid : (taken.adopt target).id = taken.id := by rw [Element.adopt_eq]
    refine ⟨?_, ?_, ?_⟩
    · rw [← hid]
      exact Forest.find?_eq_of_mem hfilled.mem_preorder hdistinct
    · rw [Forest.ids_singleton_adopt]
      exact hapart p hp
    · have := hcount p
      have := hgap.count_ids p
      have := List.count_pos_iff.mpr hp
      rw [← List.count_pos_iff]
      omega
  rw [hs, move_on_of_take? hparent hback, insert_on, Element.adopt_adopt, ← insert_on]
  exact insert_of_gap hgap hrest (hgap.adopt_eq ok)

/-- Removing undoes an insertion, of a new id into any forest, and returns the inserted element as
it stood in the forest, with the parents it had there. In a forest with distinct ids and right
parents, inserting at the old place undoes a removal, and moving back to the old place undoes a
move, wherever that went and also when it stayed among the same siblings. -/
theorem edits_can_be_undone :
    (∀ forest parent position e, (∀ id, parent = some id → id ∈ ids forest) → e.id ∉ ids forest →
      ∃ changed returned, (insert parent position e).on forest = (.ok (), changed) ∧
        (remove e.id).on changed = (.ok returned, forest) ∧ e.SettledAs parent returned) ∧
    ∀ forest, (ids forest).Nodup → Forest.checkParents forest = .ok () →
      (∀ id e rest, (remove id).on forest = (.ok e, rest) →
        (∃ parent index, StandsAt parent index e forest) ∧
        ∀ parent index, StandsAt parent index e forest →
          (insert parent (some index) e).on rest = (.ok (), forest)) ∧
      ∀ parent index e target position, StandsAt parent index e forest →
        ((move e.id target position).on forest).1 = .ok () →
        (move e.id parent (some index)).on ((move e.id target position).on forest).2 =
          (.ok (), forest) := by
  refine ⟨fun forest parent position e hparent hnew => ?_, fun forest hnodup ok => ⟨?_, ?_⟩⟩
  · obtain ⟨changed, hinsert, hremove⟩ := remove_insert hparent hnew
    exact ⟨changed, _, hinsert, hremove, e.settledAs_adopt parent⟩
  · exact fun _ _ _ => insert_remove hnodup ok
  · exact fun _ _ _ _ _ => move_back hnodup ok

/-- A box with a lid, the second thing on a shelf. -/
private def lidBox : Element :=
  { (Element.bare "box" .container).withChild (Element.bare "lid" .text) with
    parentId := some "shelf" }

private def boxShelf : Element :=
  ((Element.bare "shelf" .container).withChild (Element.bare "book" .text)).withChild lidBox

private def shelfLayout : Forest := [boxShelf, Element.bare "lamp" .image]

/-- A note with a pin in it, which record parents that are not around them. -/
private def strayNote : Element :=
  { Element.bare "note" .container with
    parentId := some "gone"
    children := [
      { Element.bare "pin" .container with
        parentId := some "lamp"
        children := [Element.bare "tip" .text] }] }

/-- The note with the parents it has in the box. -/
private def settledNote : Element :=
  { Element.bare "note" .container with
    parentId := some "box"
    children := [
      { Element.bare "pin" .container with
        parentId := some "note"
        children := [{ Element.bare "tip" .text with parentId := some "pin" }] }] }

theorem shelf_edits_undone :
    (ids shelfLayout).Nodup ∧ Forest.checkParents shelfLayout = .ok () ∧
    StandsAt (some "shelf") 1 lidBox shelfLayout ∧
    (∃ changed, (insert (some "box") (some 9) strayNote).on shelfLayout = (.ok (), changed) ∧
      (remove "note").on changed = (.ok settledNote, shelfLayout) ∧
      strayNote.SettledAs (some "box") settledNote) ∧
    (∃ rest, (remove "box").on shelfLayout = (.ok lidBox, rest) ∧
      (insert (some "shelf") (some 1) lidBox).on rest = (.ok (), shelfLayout)) ∧
    (move "box" (some "shelf") (some 1)).on
        ((move "box" (some "shelf") (some 0)).on shelfLayout).2 = (.ok (), shelfLayout) ∧
    (move "box" (some "shelf") (some 1)).on ((move "box" none none).on shelfLayout).2 =
      (.ok (), shelfLayout) := by
  have hnodup : (ids shelfLayout).Nodup := by decide
  have ok : Forest.checkParents shelfLayout = .ok () := rfl
  have hplace : StandsAt (some "shelf") 1 lidBox shelfLayout :=
    ⟨boxShelf, List.mem_cons_self, rfl, rfl⟩
  obtain ⟨inserted, kept⟩ := edits_can_be_undone
  obtain ⟨removed, moved⟩ := kept shelfLayout hnodup ok
  refine ⟨hnodup, ok, hplace, ?_, ⟨_, rfl, ?_⟩, ?_, ?_⟩
  · have hparent : ∀ id, some "box" = some id → id ∈ ids shelfLayout := by
      rintro id ⟨⟩
      decide
    obtain ⟨changed, returned, hinsert, hremove, hsettled⟩ :=
      inserted shelfLayout (some "box") (some 9) strayNote hparent (by decide)
    have hnote : (remove "note").on ((insert (some "box") (some 9) strayNote).on shelfLayout).2 =
      (.ok settledNote, shelfLayout) := rfl
    rw [hinsert] at hnote
    obtain rfl : returned = settledNote :=
      Except.ok.inj (Prod.mk.inj (hremove.symm.trans hnote)).1
    exact ⟨changed, hinsert, hremove, hsettled⟩
  · exact (removed "box" lidBox _ rfl).2 (some "shelf") 1 hplace
  · exact moved (some "shelf") 1 lidBox (some "shelf") (some 0) hplace rfl
  · exact moved (some "shelf") 1 lidBox none none hplace rfl

end ForestEdit

end Pagewright
