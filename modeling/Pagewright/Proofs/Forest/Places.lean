import Mathlib.Data.List.Nodup
import Pagewright.Proofs.Forest.Edits

/-! Where an element stands in a forest: under which parent, and at which index among its siblings.
Inserting fills a gap at such a place and taking leaves one. -/

namespace Pagewright

namespace Forest

/-- The element stands at an index among the children of a parent, or among the roots. -/
def StandsAt (parent : Option String) (index : Nat) (e : Element) (forest : Forest) : Prop :=
  match parent with
  | none => forest[index]? = some e
  | some id => ∃ p ∈ preorder forest, p.id = id ∧ p.children[index]? = some e

/-- Of two forests that are alike otherwise, the second has one more element, at an index among
the children of a parent. Both forests are the children of `top`, or the roots. -/
inductive Gap (parent : Option String) (index : Nat) (e : Element) :
    (top : Option String) → Forest → Forest → Prop where
  | here (before after : List Element) (hlength : before.length = index) :
      Gap parent index e parent (before ++ after) (before ++ e :: after)
  | within {top : Option String} (before : List Element) (p : Element) (after : List Element)
      {below : List Element} : Gap parent index e (some p.id) below p.children →
      Gap parent index e top (before ++ { p with children := below } :: after)
        (before ++ p :: after)

section Search

variable {id : String} {before : List Element}

private theorem takeRoot?_append (h : id ∉ ids before) (rest : Forest) :
    takeRoot? id (before ++ rest) =
      (takeRoot? id rest).map fun (found, rest) => (found, before ++ rest) := by
  induction before with
  | nil => simp
  | cons root others ih =>
    simp only [ids_cons, List.mem_cons, List.mem_append, not_or] at h
    rw [List.cons_append, takeRoot?, if_neg (Ne.symm h.1), ih h.2.2, Option.map_map]
    rfl

private theorem takeBelow?_append (h : id ∉ ids before) (rest : Forest) :
    takeBelow? id (before ++ rest) =
      (takeBelow? id rest).map fun (found, rest) => (found, before ++ rest) := by
  induction before with
  | nil => simp
  | cons root others ih =>
    simp only [ids_cons, List.mem_cons, List.mem_append, not_or] at h
    rw [List.cons_append, takeBelow?_cons, take?_eq_none_iff.mpr h.2.1, ih h.2.2, Option.map_none,
      Option.none_or, Option.map_map]
    rfl

private theorem modify?_append {f : Element → Element} (h : id ∉ ids before) (rest : Forest) :
    modify? id f (before ++ rest) = (modify? id f rest).map (before ++ ·) := by
  induction before with
  | nil => simp
  | cons root others ih =>
    simp only [ids_cons, List.mem_cons, List.mem_append, not_or] at h
    rw [List.cons_append, modify?_cons, if_neg (Ne.symm h.1), modify?_eq_none_iff.mpr h.2.1,
      ih h.2.2, Option.map_none, Option.none_or, Option.map_map]
    rfl

end Search

theorem Replaces.symm {old new forest changed : List Element}
    (h : Replaces old new forest changed) : Replaces new old changed forest := by
  induction h with
  | here before after => exact .here before after
  | within before e after _ ih =>
    cases e
    exact .within before ⟨_, _, _, _, _, _, _, _, _⟩ after ih

/-- Every element of a forest can be given other children where it stands. -/
private theorem exists_replaces {forest : Forest} {p : Element} (h : p ∈ preorder forest)
    (children : List Element) :
    ∃ changed, Replaces [p] [{ p with children := children }] forest changed := by
  induction forest using Forest.induction with
  | nil => simp [preorder] at h
  | cons root rest below beside =>
    rw [preorder_cons, List.mem_cons, List.mem_append] at h
    rcases h with rfl | h | h
    · exact ⟨_, .here [] rest⟩
    · obtain ⟨changed, hrep⟩ := below h
      exact ⟨_, hrep.children rest⟩
    · obtain ⟨changed, hrep⟩ := beside h
      exact ⟨_, hrep.cons root⟩

/-- With distinct ids, finding gives whichever element of the forest has the id. -/
theorem find?_eq_of_mem {forest : Forest} {e : Element} (h : e ∈ preorder forest)
    (hnodup : (ids forest).Nodup) : find? e.id forest = some e := by
  have hfound : find? e.id forest ≠ none := by
    rw [ne_eq, find?_eq_none_iff, not_not]
    exact List.mem_map_of_mem h
  obtain ⟨found, hf⟩ := Option.ne_none_iff_exists'.mp hfound
  obtain ⟨hm, hid⟩ := find?_some hf
  rw [hf, List.inj_on_of_nodup_map hnodup hm h hid]

namespace Gap

variable {parent top : Option String} {index : Nat} {e p : Element} {left filled : Forest}

/-- A gap among the children of an element is a gap of every forest with that element. -/
theorem deepen {below : List Element}
    (h : Replaces [p] [{ p with children := below }] filled left)
    (hgap : Gap parent index e (some p.id) below p.children) :
    Gap parent index e top left filled := by
  induction h generalizing top with
  | here before after => simpa using Gap.within before p after hgap
  | within before root after _ ih => exact Gap.within before root after ih

theorem of_place (position : Option Nat) (e : Element) (siblings : Forest)
    (parent : Option String) :
    ∃ index, Gap parent index e parent siblings (place position e siblings) := by
  rw [place_eq]
  generalize min (position.getD siblings.length) siblings.length = n
  have h : Gap parent _ e parent _ (siblings.take n ++ e :: siblings.drop n) := .here _ _ rfl
  rw [List.take_append_drop] at h
  exact ⟨_, h⟩

theorem of_insert? {position : Option Nat} (h : insert? parent position e left = some filled) :
    ∃ index, Gap parent index e none left filled := by
  cases parent with
  | none =>
    cases h
    exact of_place position e left none
  | some id =>
    obtain ⟨p, hp, hrep⟩ := modify?_replaces h
    obtain ⟨-, rfl⟩ := find?_some hp
    obtain ⟨index, hgap⟩ := of_place position e p.children (some p.id)
    cases p
    exact ⟨index, deepen hrep.symm hgap⟩

theorem of_replaces (h : Replaces [e] [] filled left) (top : Option String) :
    ∃ parent index, Gap parent index e top left filled := by
  induction h generalizing top with
  | here before after =>
    refine ⟨top, before.length, ?_⟩
    simpa using Gap.here before after rfl
  | within before root after _ ih =>
    obtain ⟨parent, index, hgap⟩ := ih (some root.id)
    exact ⟨parent, index, hgap.within before root after⟩

theorem of_standsAt (h : StandsAt parent index e filled) :
    ∃ left, Gap parent index e none left filled := by
  have split {siblings : List Element} (parent : Option String) (h : siblings[index]? = some e) :
      ∃ others, Gap parent index e parent others siblings := by
    obtain ⟨hlt, rfl⟩ := List.getElem?_eq_some_iff.mp h
    have hlength := List.length_take_of_le (Nat.le_of_lt hlt)
    have hgap : Gap parent index siblings[index] parent _
        (siblings.take index ++ siblings[index] :: siblings.drop (index + 1)) := .here _ _ hlength
    rw [List.getElem_cons_drop, List.take_append_drop] at hgap
    exact ⟨_, hgap⟩
  cases parent with
  | none => exact split none h
  | some id =>
    obtain ⟨p, hp, rfl, hchild⟩ := h
    obtain ⟨others, hgap⟩ := split (some p.id) hchild
    obtain ⟨left, hrep⟩ := exists_replaces hp others
    exact ⟨left, hgap.deepen hrep⟩

private theorem stands_among (h : Gap parent index e top left filled) :
    (top = parent ∧ filled[index]? = some e) ∨
      ∃ p ∈ preorder filled, some p.id = parent ∧ p.children[index]? = some e := by
  induction h with
  | here before after hlength => exact .inl ⟨rfl, by simp [← hlength]⟩
  | within before p after _ ih =>
    refine .inr ?_
    rcases ih with ⟨hid, hchild⟩ | ⟨q, hq, hid, hchild⟩
    · exact ⟨p, by simp [preorder_append, preorder_cons], hid, hchild⟩
    · exact ⟨q, by simp [preorder_append, preorder_cons, hq], hid, hchild⟩

theorem standsAt (h : Gap parent index e none left filled) : StandsAt parent index e filled := by
  rcases h.stands_among with ⟨rfl, hroot⟩ | ⟨p, hp, rfl, hchild⟩
  · exact hroot
  · exact ⟨p, hp, rfl, hchild⟩

/-- The ids of a forest with an element are those of the forest without it and its own. -/
theorem count_ids (h : Gap parent index e top left filled) (id : String) :
    (ids filled).count id = (ids left).count id + (ids [e]).count id := by
  induction h with
  | here before after _ =>
    simp only [ids_append, ids_cons, ids_nil, List.count_append, List.count_cons, List.count_nil]
    omega
  | within before p after _ ih =>
    simp only [ids_append, ids_cons, List.count_append, List.count_cons, ih]
    omega

theorem mem_preorder (h : Gap parent index e top left filled) : e ∈ preorder filled := by
  induction h with
  | here before after _ => simp [preorder_append, preorder_cons]
  | within before p after _ ih => simp [preorder_append, preorder_cons, ih]

theorem parent_mem_ids {id : String} (h : Gap (some id) index e top left filled)
    (htop : top ≠ some id) : id ∈ ids left := by
  induction h with
  | here before after _ => exact absurd rfl htop
  | within before p after _ ih =>
    by_cases hp : p.id = id
    · simp [hp]
    · have hbelow := ih fun he => hp (Option.some.inj he)
      simp [hbelow]

/-- The element is the first one found when the rest of the forest does not have its id. -/
theorem take?_eq (h : Gap parent index e top left filled) (hnew : e.id ∉ ids left) :
    take? e.id filled = some (e, left) := by
  induction h with
  | here before after _ =>
    rw [ids_append, List.mem_append, not_or] at hnew
    rw [take?, takeRoot?_append hnew.1, takeRoot?, if_pos rfl]
    rfl
  | within before p after _ ih =>
    simp only [ids_append, ids_cons, List.mem_append, List.mem_cons, not_or] at hnew
    obtain ⟨hbefore, hp, hbelow, hafter⟩ := hnew
    have hroot := takeRoot?_append hafter []
    rw [List.append_nil] at hroot
    rw [take?, takeRoot?_append hbefore, takeRoot?, if_neg (Ne.symm hp), hroot,
      takeBelow?_append hbefore, takeBelow?_cons, ih hbelow]
    rfl

private theorem place_eq_of_length {before after : List Element} (hlength : before.length = index) :
    place (some index) e (before ++ after) = before ++ e :: after := by
  have hle : min index (before ++ after).length = index := by
    rw [List.length_append]
    omega
  rw [place_eq, Option.getD_some, hle, List.take_left' hlength, List.drop_left' hlength]

/-- With distinct ids the parent is found where the gap is. -/
private theorem modify?_eq {id : String} (h : Gap (some id) index e top left filled)
    (hnodup : (ids left).Nodup) : (top = some id ∧ place (some index) e left = filled) ∨
      modify? id (fun p => { p with children := place (some index) e p.children }) left =
        some filled := by
  induction h with
  | here before after hlength => exact .inl ⟨rfl, place_eq_of_length hlength⟩
  | @within top before p after below hgap ih =>
    refine .inr ?_
    rw [ids_append, ids_cons] at hnodup
    obtain ⟨-, hfrom, hapart⟩ := List.nodup_append.mp hnodup
    obtain ⟨hout, hrest⟩ := List.nodup_cons.mp hfrom
    have apart {other : String} (hm : other ∈ p.id :: (ids below ++ ids after)) :
        other ∉ ids before := fun hb => hapart other hb other hm rfl
    rcases ih hrest.of_append_left with ⟨hid, hplace⟩ | hmodify
    · obtain rfl : p.id = id := Option.some.inj hid
      rw [modify?_append (apart List.mem_cons_self), modify?_cons, if_pos rfl, hplace]
      cases p
      rfl
    · have hbelow : id ∈ ids below := by
        by_contra hm
        rw [modify?_eq_none_iff.mpr hm] at hmodify
        cases hmodify
      have hp : p.id ≠ id := fun he => hout (List.mem_append_left _ (he ▸ hbelow))
      rw [modify?_append (apart (List.mem_cons_of_mem _ (List.mem_append_left _ hbelow))),
        modify?_cons, if_neg hp, hmodify]
      cases p
      rfl

/-- With distinct ids, inserting at the place of a gap fills the gap. -/
theorem insert?_eq (h : Gap parent index e none left filled) (hnodup : (ids left).Nodup) :
    insert? parent (some index) e left = some filled := by
  cases parent with
  | none =>
    cases h with
    | here before after hlength => rw [insert?, place_eq_of_length hlength]
    | within before p after hgap =>
      rcases hgap.stands_among with ⟨hid, -⟩ | ⟨_, -, hid, -⟩ <;> cases hid
  | some id => exact (modify?_eq h hnodup).resolve_left fun h => Option.some_ne_none _ h.1.symm

end Gap

end Forest

end Pagewright
