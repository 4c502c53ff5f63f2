import Pagewright.Proofs.Forest.Replacement

/-! Collecting the ids of a forest: it gives all of them when they are distinct, and otherwise
reports the first one that occurred before. -/

namespace Pagewright

/-- The first entry of a list that already occurred before it. -/
def IsFirstRepeat (entries : List String) (id : String) : Prop :=
  ∃ before after, entries = before ++ id :: after ∧ before.Nodup ∧ id ∈ before

namespace Forest

/-- New entries that differ can be taken in one by one. -/
private theorem fresh_cons {seen entries : List String} {first : String} :
    ((first :: entries).Nodup ∧ ∀ id ∈ first :: entries, id ∉ seen) ↔
      first ∉ seen ∧ entries.Nodup ∧ ∀ id ∈ entries, id ∉ first :: seen := by
  simp only [List.nodup_cons, List.mem_cons, forall_eq_or_imp, not_or]
  constructor
  · rintro ⟨⟨hm, hn⟩, hfirst, hr⟩
    exact ⟨hfirst, hn, fun other ho => ⟨fun he => hm (he ▸ ho), hr other ho⟩⟩
  · rintro ⟨hfirst, hn, hr⟩
    exact ⟨⟨fun hm => (hr first hm).1 rfl, hn⟩, hfirst, fun other hm => (hr other hm).2⟩

private theorem firstRepeat?_eq_none_iff {seen entries : List String} :
    firstRepeat? seen entries = none ↔ entries.Nodup ∧ ∀ id ∈ entries, id ∉ seen := by
  induction entries generalizing seen with
  | nil => simp [firstRepeat?]
  | cons id rest ih =>
    rw [firstRepeat?, fresh_cons]
    by_cases h : id ∈ seen
    · simp [h]
    · rw [if_neg h, ih, and_iff_right h]

private theorem firstRepeat?_eq_some_iff {seen entries : List String} {id : String} :
    firstRepeat? seen entries = some id ↔ ∃ before after, entries = before ++ id :: after ∧
      (before.Nodup ∧ ∀ entry ∈ before, entry ∉ seen) ∧ (id ∈ before ∨ id ∈ seen) := by
  induction entries generalizing seen with
  | nil => simp [firstRepeat?]
  | cons first rest ih =>
    have hmem (before : List String) : id ∈ before ∨ id ∈ first :: seen ↔
        id ∈ first :: before ∨ id ∈ seen := by
      simp only [List.mem_cons, or_assoc, or_left_comm]
    rw [firstRepeat?]
    by_cases hfirst : first ∈ seen
    · rw [if_pos hfirst, Option.some.injEq]
      constructor
      · rintro rfl
        exact ⟨[], rest, rfl, ⟨List.nodup_nil, List.forall_mem_nil _⟩, .inr hfirst⟩
      · rintro ⟨_ | ⟨_, before⟩, after, heq, hfresh, -⟩
        · exact (List.cons.inj heq).1
        · obtain ⟨rfl, -⟩ := List.cons.inj heq
          exact absurd hfirst (fresh_cons.mp hfresh).1
    · rw [if_neg hfirst, ih]
      constructor
      · rintro ⟨before, after, rfl, hfresh, hrepeat⟩
        refine ⟨first :: before, after, rfl, ?_, (hmem before).mp hrepeat⟩
        exact fresh_cons.mpr ⟨hfirst, hfresh⟩
      · rintro ⟨_ | ⟨_, before⟩, after, heq, hfresh, hrepeat⟩
        · obtain ⟨rfl, -⟩ := List.cons.inj heq
          exact absurd (hrepeat.resolve_left List.not_mem_nil) hfirst
        · obtain ⟨rfl, rfl⟩ := List.cons.inj heq
          exact ⟨before, after, rfl, (fresh_cons.mp hfresh).2, (hmem before).mpr hrepeat⟩

/-- Collecting gives the ids of the forest exactly when they are distinct. -/
theorem collectIds_eq_ok_iff {forest : Forest} {found : List String} :
    collectIds forest = .ok found ↔ (ids forest).Nodup ∧ found = ids forest := by
  have hn : firstRepeat? [] (ids forest) = none ↔ (ids forest).Nodup := by
    simp [firstRepeat?_eq_none_iff]
  rw [← hn]
  unfold collectIds
  extract_lets ids
  change _ ↔ firstRepeat? [] ids = none ∧ found = ids
  cases firstRepeat? [] ids with
  | some id => simp
  | none => simp [eq_comm]

theorem collectIds_eq_error_iff {forest : Forest} {fault : ForestError} :
    collectIds forest = .error fault ↔
      ∃ id, IsFirstRepeat (ids forest) id ∧ fault = .duplicateId id := by
  have hsome (id : String) : firstRepeat? [] (ids forest) = some id ↔
      IsFirstRepeat (ids forest) id := by
    simp [firstRepeat?_eq_some_iff, IsFirstRepeat]
  simp only [← hsome]
  unfold collectIds
  extract_lets ids
  change _ ↔ ∃ id, firstRepeat? [] ids = some id ∧ fault = _
  cases firstRepeat? [] ids with
  | some id => simp [eq_comm]
  | none => simp

theorem exists_collectIds_iff {forest : Forest} :
    (∃ found, collectIds forest = .ok found) ↔ (ids forest).Nodup := by
  simp [collectIds_eq_ok_iff]

end Forest

end Pagewright
