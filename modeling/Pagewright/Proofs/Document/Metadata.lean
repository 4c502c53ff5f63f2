import Pagewright.Document.Page
import Pagewright.Proofs.Document.Decoding
import Pagewright.Proofs.Json.Equality

/-! Metadata values are decoded as what has been written. Free-form data is settled when it is
decoded, and settling it again does not change it. -/

namespace Pagewright

namespace Json

section Sorting

variable {members : List (String × Json)} {member : String × Json}

/-- The keys are in strictly ascending order. -/
def KeysAscend (members : List (String × Json)) : Prop := members.Pairwise fun a b => a.1 < b.1

private theorem mem_insertSorted {key : String} {value : Json}
    (h : member ∈ insertSorted key value members) : member = (key, value) ∨ member ∈ members := by
  induction members with
  | nil => exact .inl (List.mem_singleton.mp h)
  | cons first rest ih =>
    rw [insertSorted] at h
    split at h
    · exact List.mem_cons.mp h
    split at h
    · exact (List.mem_cons.mp h).imp_right (List.mem_cons_of_mem first)
    · rcases List.mem_cons.mp h with rfl | h
      · exact .inr List.mem_cons_self
      · exact (ih h).imp_right (List.mem_cons_of_mem first)

private theorem keysAscend_insertSorted (key : String) (value : Json) (h : KeysAscend members) :
    KeysAscend (insertSorted key value members) := by
  induction members with
  | nil => exact List.pairwise_singleton _ _
  | cons first rest ih =>
    obtain ⟨hfirst, hrest⟩ := List.pairwise_cons.mp h
    rw [insertSorted]
    split
    · next hbefore =>
      refine List.pairwise_cons.mpr ⟨fun other ho => ?_, h⟩
      rcases List.mem_cons.mp ho with rfl | ho
      · exact hbefore
      · exact String.lt_trans hbefore (hfirst other ho)
    split
    · next _ hsame =>
      subst hsame
      exact List.pairwise_cons.mpr ⟨hfirst, hrest⟩
    · next hbefore hother =>
      refine List.pairwise_cons.mpr ⟨fun other ho => ?_, ih hrest⟩
      rcases mem_insertSorted ho with rfl | ho
      · refine Decidable.byContradiction fun hafter => hother ?_
        exact String.le_antisymm (String.not_lt.mp hafter) (String.not_lt.mp hbefore)
      · exact hfirst other ho

private theorem insertSorted_of_last {key : String} {value : Json}
    (h : ∀ member ∈ members, member.1 < key) :
    insertSorted key value members = members ++ [(key, value)] := by
  induction members with
  | nil => rfl
  | cons first rest ih =>
    obtain ⟨hfirst, hrest⟩ := List.forall_mem_cons.mp h
    have hne : key ≠ first.1 := by
      rintro rfl
      exact String.lt_irrefl _ hfirst
    rw [insertSorted, if_neg (String.lt_asymm hfirst), if_neg hne, ih hrest, List.cons_append]

/-- Enters members one after the other into sorted members. -/
private def insertMembers (sorted members : List (String × Json)) : List (String × Json) :=
  members.foldl (fun sorted (key, value) => insertSorted key value sorted) sorted

private theorem insertMembers_cons (sorted rest : List (String × Json)) :
    insertMembers sorted (member :: rest) =
      insertMembers (insertSorted member.1 member.2 sorted) rest := rfl

private theorem keysAscend_insertMembers {sorted : List (String × Json)} (h : KeysAscend sorted) :
    KeysAscend (insertMembers sorted members) := by
  induction members generalizing sorted with
  | nil => exact h
  | cons first rest ih => exact ih (keysAscend_insertSorted first.1 first.2 h)

theorem keysAscend_sortMembers (members : List (String × Json)) :
    KeysAscend (sortMembers members) :=
  keysAscend_insertMembers List.Pairwise.nil

private theorem mem_insertMembers {sorted : List (String × Json)}
    (h : member ∈ insertMembers sorted members) : member ∈ sorted ∨ member ∈ members := by
  induction members generalizing sorted with
  | nil => exact .inl h
  | cons first rest ih =>
    rcases ih h with h | h
    · rcases mem_insertSorted h with rfl | h
      · exact .inr List.mem_cons_self
      · exact .inl h
    · exact .inr (List.mem_cons_of_mem first h)

theorem mem_of_mem_sortMembers (h : member ∈ sortMembers members) : member ∈ members :=
  (mem_insertMembers h).resolve_left List.not_mem_nil

private theorem insertMembers_of_keysAscend {sorted : List (String × Json)}
    (h : KeysAscend (sorted ++ members)) : insertMembers sorted members = sorted ++ members := by
  induction members generalizing sorted with
  | nil => exact (List.append_nil sorted).symm
  | cons first rest ih =>
    have last : ∀ member ∈ sorted, member.1 < first.1 := fun member hm =>
      (List.pairwise_append.mp h).2.2 member hm first List.mem_cons_self
    rw [insertMembers_cons, insertSorted_of_last last, ih, List.append_assoc,
      List.singleton_append]
    rwa [List.append_assoc, List.singleton_append]

/-- Sorted members stay as they are. -/
theorem sortMembers_of_keysAscend (h : KeysAscend members) : sortMembers members = members :=
  insertMembers_of_keysAscend h

end Sorting

/-- The keys of every object are in ascending order, and every literal has a value. -/
inductive Settled : Json → Prop where
  | leaf {j : Json} : j.IsLeaf → j ≠ .unusable → Settled j
  | array {items : List Json} : (∀ item ∈ items, Settled item) → Settled (.array items)
  | object {members : List (String × Json)} : KeysAscend members →
      (∀ member ∈ members, Settled member.2) → Settled (.object members)

private theorem settle?_leaf {j : Json} (h : j.IsLeaf) (limit : Nat) :
    settle? limit j = if j = .unusable then none else some j := by
  cases j with
  | array items => exact h.elim
  | object members => exact h.elim
  | _ => cases limit <;> rfl

section

variable {limit : Nat} {j k : Json}

private theorem exists_of_settle?_array {items : List Json}
    (h : settle? limit (.array items) = some k) : ∃ inner settled, limit = inner + 1 ∧
      k = .array settled ∧ items.mapM (settle? inner) = some settled := by
  cases limit with
  | zero => cases h
  | succ inner =>
    obtain ⟨settled, hsettled, rfl⟩ := Option.map_eq_some_iff.mp h
    exact ⟨inner, settled, rfl, rfl, hsettled⟩

private theorem exists_of_settle?_object {members : List (String × Json)}
    (h : settle? limit (.object members) = some k) : ∃ inner settled, k = .object settled ∧
      KeysAscend settled ∧
        ∀ member ∈ settled, ∃ before ∈ members, settle? inner before.2 = some member.2 := by
  cases limit with
  | zero => cases h
  | succ inner =>
    obtain ⟨settled, hsettled, rfl⟩ := Option.map_eq_some_iff.mp h
    refine ⟨inner, sortMembers settled, rfl, keysAscend_sortMembers settled, fun member hm => ?_⟩
    obtain ⟨before, hb, hmember⟩ :=
      exists_of_mem_mapM hsettled member (mem_of_mem_sortMembers hm)
    obtain ⟨value, hvalue, rfl⟩ := Option.map_eq_some_iff.mp hmember
    exact ⟨before, hb, hvalue⟩

/-- Free-form data is settled when it has been decoded. -/
theorem settled_of_settle? (h : settle? limit j = some k) : Settled k := by
  induction j using Json.induction generalizing limit k with
  | leaf j hleaf =>
    rw [settle?_leaf hleaf] at h
    split at h
    · cases h
    · next hvalue =>
      cases h
      exact .leaf hleaf hvalue
  | array items ih =>
    obtain ⟨inner, settled, _, rfl, read⟩ := exists_of_settle?_array h
    refine .array fun item hitem => ?_
    obtain ⟨before, hb, hsettle⟩ := exists_of_mem_mapM read item hitem
    exact ih before hb hsettle
  | object members ih =>
    obtain ⟨inner, settled, rfl, ascend, read⟩ := exists_of_settle?_object h
    refine .object ascend fun member hm => ?_
    obtain ⟨before, hb, hsettle⟩ := read member hm
    exact ih before hb hsettle

/-- Nothing appears in free-form data when it is settled. -/
theorem mem_leaves_of_settle? (h : settle? limit j = some k) {leaf : Json}
    (hleaf : leaf ∈ k.leaves) : leaf ∈ j.leaves := by
  induction j using Json.induction generalizing limit k with
  | leaf j hj =>
    rw [settle?_leaf hj] at h
    split at h <;> cases h
    exact hleaf
  | array items ih =>
    obtain ⟨inner, settled, _, rfl, read⟩ := exists_of_settle?_array h
    obtain ⟨item, hitem, hleaf⟩ := mem_leaves_array.mp hleaf
    obtain ⟨before, hb, hsettle⟩ := exists_of_mem_mapM read item hitem
    exact mem_leaves_array.mpr ⟨before, hb, ih before hb hsettle hleaf⟩
  | object members ih =>
    obtain ⟨inner, settled, rfl, _, read⟩ := exists_of_settle?_object h
    obtain ⟨member, hm, hleaf⟩ := mem_leaves_object.mp hleaf
    obtain ⟨before, hb, hsettle⟩ := read member hm
    exact mem_leaves_object.mpr ⟨before, hb, ih before hb hsettle hleaf⟩

theorem Settled.every_value (h : Settled k) : k.Every fun leaf => leaf ≠ .unusable := by
  induction h with
  | leaf hleaf hvalue => exact every_leaf hleaf hvalue
  | array _ ih => exact every_array.mpr ih
  | object _ _ ih => exact every_object.mpr ih

/-- Settled data stays as it is. -/
theorem Settled.restores (h : Settled k) : Decoder.Restores settle? id k := by
  induction h with
  | leaf hleaf hvalue =>
    intro limit _
    rw [id_eq, settle?_leaf hleaf, if_neg hvalue]
  | @array items _ ih =>
    intro limit hdepth
    obtain ⟨inner, rfl, hitems⟩ := depth_array_le.mp hdepth
    have read : (items.map id).mapM (settle? inner) = some (items.map id) :=
      mapM_map_eq_some fun item hm => ih item hm inner (hitems item hm)
    rw [List.map_id] at read
    rw [id_eq, settle?, read, Option.map_some]
  | @object members ascend _ ih =>
    intro limit hdepth
    obtain ⟨inner, rfl, hmembers⟩ := depth_object_le.mp hdepth
    have read : (members.map id).mapM (fun m => (settle? inner m.2).map (m.1, ·)) =
        some (members.map id) := by
      refine mapM_map_eq_some fun member hm => ?_
      have value : settle? inner member.2 = some member.2 := ih member hm inner (hmembers member hm)
      rw [id_eq, value]
      rfl
    rw [List.map_id] at read
    rw [id_eq, settle?, read, Option.map_some, sortMembers_of_keysAscend ascend]

private theorem settle?_eq_some_array {settled : List Json}
    (h : settle? limit j = some (.array settled)) : ∃ inner items, limit = inner + 1 ∧
      j = .array items ∧ items.mapM (settle? inner) = some settled := by
  cases j with
  | array items =>
    obtain ⟨inner, settled, rfl, hsettled, read⟩ := exists_of_settle?_array h
    cases hsettled
    exact ⟨inner, items, rfl, rfl, read⟩
  | object members =>
    obtain ⟨_, _, hsettled, _⟩ := exists_of_settle?_object h
    cases hsettled
  | _ => cases limit <;> cases h

private theorem eq_of_settle?_leaf (hleaf : k.IsLeaf) (h : settle? limit j = some k) : j = k := by
  cases j with
  | array items =>
    obtain ⟨_, settled, _, rfl, _⟩ := exists_of_settle?_array h
    exact hleaf.elim
  | object members =>
    obtain ⟨_, settled, rfl, _⟩ := exists_of_settle?_object h
    exact hleaf.elim
  | unusable => cases limit <;> cases h
  | _ =>
    rw [settle?_leaf (by trivial)] at h
    cases h
    rfl

end

end Json

namespace Decoder

section

variable {limit other : Nat} {j k : Json}

private theorem string_eq_some {s : String} (h : string limit j = some s) : j = .string s := by
  cases j with
  | string text =>
    cases h
    rfl
  | _ => cases h

/-- Settling makes no list of texts out of other data. -/
private theorem list_string_of_settle? (h : Json.settle? limit j = some k) {texts : List String}
    (read : list string other k = some texts) : list string limit j = some texts := by
  obtain ⟨settled, rfl, rfl⟩ : ∃ settled, k = .array settled ∧ settled = texts.map .string := by
    unfold list at read
    split at read
    · exact ⟨_, rfl, eq_map_of_mapM read fun _ _ _ => string_eq_some⟩
    · cases read
  obtain ⟨inner, items, rfl, rfl, hitems⟩ := Json.settle?_eq_some_array h
  have same : items = (texts.map Json.string).map id := by
    refine eq_map_of_mapM hitems fun x y hy hx => ?_
    obtain ⟨s, _, rfl⟩ := List.mem_map.mp hy
    exact Json.eq_of_settle?_leaf trivial hx
  have read : (texts.map Json.string).mapM (string inner) = some (texts.map id) :=
    mapM_map_eq_some fun _ _ => rfl
  rw [list, same, List.map_id, read, List.map_id]

/-- Settling makes no scalar out of other data. -/
private theorem scalar_of_settle? (h : Json.settle? limit j = some k) {s : Scalar}
    (read : scalar other k = some s) : scalar limit j = some s := by
  cases k with
  | bool | int | number | string =>
    rw [Json.eq_of_settle?_leaf (by trivial) h]
    exact read
  | _ => cases read

theorem of_metaValue_other (h : metaValue limit j = some (.other k)) :
    list string limit j = none ∧ scalar limit j = none ∧ Json.settle? limit j = some k := by
  unfold metaValue at h
  split at h <;> try cases h
  next nolist noscalar =>
    obtain ⟨k, settled, hk⟩ := Option.map_eq_some_iff.mp h
    cases hk
    exact ⟨nolist, noscalar, settled⟩

private theorem string_restores (s : String) : Restores string .string s := fun _ _ => rfl

/-- A metadata value that has been decoded is restored: its form is the same one again. -/
theorem metaValue_restores {v : MetaValue} (h : metaValue limit j = some v) :
    Restores metaValue MetaValue.toDocument v := by
  intro limit' hdepth
  cases v with
  | list items =>
    have read := list_restores (fun s _ => string_restores s) limit' hdepth
    rw [MetaValue.toDocument, metaValue, read]
  | text | number | bool => cases limit' <;> rfl
  | other k =>
    obtain ⟨nolist, noscalar, settled⟩ := of_metaValue_other h
    have list_none : list string limit' k = none :=
      Option.eq_none_iff_forall_ne_some.mpr fun texts read => by
        rw [list_string_of_settle? settled read] at nolist
        cases nolist
    have scalar_none : scalar limit' k = none :=
      Option.eq_none_iff_forall_ne_some.mpr fun s read => by
        rw [scalar_of_settle? settled read] at noscalar
        cases noscalar
    have stays : Json.settle? limit' k = some k :=
      (Json.settled_of_settle? settled).restores limit' hdepth
    rw [MetaValue.toDocument, metaValue, list_none, scalar_none]
    exact congrArg (Option.map _) stays

end

end Decoder

end Pagewright
