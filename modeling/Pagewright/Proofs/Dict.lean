import Pagewright.Dict

/-! Looking up what has been written to a dictionary, and the order of its entries. -/

namespace Pagewright

namespace Dict

variable {α : Type}

private theorem find?_insertEntry (key other : String) (value : α) (entries : List (String × α)) :
    (insertEntry key value entries).find? (fun e => e.1 = other) =
      if key = other then some (key, value) else entries.find? fun e => e.1 = other := by
  induction entries with
  | nil =>
    rw [insertEntry, List.find?_cons]
    by_cases h : key = other <;> simp [h]
  | cons entry rest ih =>
    rw [insertEntry]
    by_cases hentry : entry.1 = key
    · rw [if_pos hentry, List.find?_cons, List.find?_cons, hentry]
      by_cases h : key = other <;> simp [h]
    · rw [if_neg hentry, List.find?_cons, List.find?_cons, ih]
      by_cases h : key = other
      · subst h
        simp [hentry]
      · simp [h]

/-- A key has the value written to it last; the other keys keep theirs. -/
theorem get?_insert (d : Dict α) (key other : String) (value : α) :
    (d.insert key value).get? other = if key = other then some value else d.get? other := by
  rw [get?, insert, find?_insertEntry]
  split <;> rfl

theorem eq_of_entries {d e : Dict α} (h : d.entries = e.entries) : d = e := by
  cases d
  cases e
  cases h
  rfl

private theorem insertEntry_fresh {key : String} {value : α} {entries : List (String × α)}
    (h : key ∉ entries.map Prod.fst) :
    insertEntry key value entries = entries ++ [(key, value)] := by
  induction entries with
  | nil => rfl
  | cons entry rest ih =>
    rw [List.map_cons, List.mem_cons, not_or] at h
    rw [insertEntry, if_neg (Ne.symm h.1), ih h.2, List.cons_append]

private theorem insertAll_entries {d : Dict α} {entries : List (String × α)}
    (h : ((d.entries ++ entries).map Prod.fst).Nodup) :
    (d.insertAll entries).entries = d.entries ++ entries := by
  induction entries generalizing d with
  | nil => simp [insertAll]
  | cons entry rest ih =>
    have fresh : entry.1 ∉ d.entries.map Prod.fst := by
      rw [List.map_append, List.map_cons, List.nodup_append] at h
      exact fun hm => h.2.2 entry.1 hm entry.1 List.mem_cons_self rfl
    have inserted : (d.insert entry.1 entry.2).entries = d.entries ++ [entry] :=
      insertEntry_fresh fresh
    have step : (d.insertAll (entry :: rest)).entries =
        ((d.insert entry.1 entry.2).insertAll rest).entries := rfl
    rw [step, ih, inserted, List.append_assoc, List.singleton_append]
    rwa [inserted, List.append_assoc, List.singleton_append]

/-- Entries with distinct keys are written as they are. -/
theorem entries_ofList {entries : List (String × α)} (h : (entries.map Prod.fst).Nodup) :
    (ofList entries).entries = entries :=
  insertAll_entries h

theorem ofList_entries (d : Dict α) : ofList d.entries = d :=
  eq_of_entries (entries_ofList d.nodup)

private theorem mem_insertEntry {key : String} {value : α} {entries : List (String × α)}
    {entry : String × α} (h : entry ∈ insertEntry key value entries) :
    entry = (key, value) ∨ entry ∈ entries := by
  induction entries with
  | nil => exact .inl (List.mem_singleton.mp h)
  | cons other rest ih =>
    rw [insertEntry] at h
    split at h
    · exact (List.mem_cons.mp h).imp_right (List.mem_cons_of_mem other)
    · rcases List.mem_cons.mp h with rfl | h
      · exact .inr List.mem_cons_self
      · exact (ih h).imp_right (List.mem_cons_of_mem other)

/-- Every entry of a dictionary is the one written last or was there before. -/
theorem mem_of_mem_insert {d : Dict α} {key : String} {value : α} {entry : String × α}
    (h : entry ∈ (d.insert key value).entries) : entry = (key, value) ∨ entry ∈ d.entries :=
  mem_insertEntry h

theorem mem_of_get? {d : Dict α} {key : String} {value : α} (h : d.get? key = some value) :
    (key, value) ∈ d.entries := by
  obtain ⟨entry, hfind, rfl⟩ := Option.map_eq_some_iff.mp h
  have hkey : entry.1 = key := by simpa using List.find?_some hfind
  rw [← hkey]
  exact List.mem_of_find?_eq_some hfind

private theorem mem_insertAll {d : Dict α} {entries : List (String × α)} {entry : String × α}
    (h : entry ∈ (d.insertAll entries).entries) : entry ∈ d.entries ∨ entry ∈ entries := by
  induction entries generalizing d with
  | nil => exact .inl h
  | cons first rest ih =>
    rcases ih h with h | h
    · rcases mem_of_mem_insert h with rfl | h
      · exact .inr List.mem_cons_self
      · exact .inl h
    · exact .inr (List.mem_cons_of_mem first h)

/-- Every entry of a dictionary is one of those written to it. -/
theorem mem_of_mem_ofList {entries : List (String × α)} {entry : String × α}
    (h : entry ∈ (ofList entries).entries) : entry ∈ entries :=
  (mem_insertAll h).resolve_left List.not_mem_nil

/-- The entries of a dictionary with those of another merged in: keys that are there keep their
place and take the new value, the others follow in their order. -/
def mergedEntries (d new : Dict α) : List (String × α) :=
  d.entries.map (fun e => (e.1, (new.get? e.1).getD e.2)) ++
    new.entries.filter fun e => !d.contains e.1

private theorem contains_iff {d : Dict α} {key : String} :
    d.contains key ↔ key ∈ d.entries.map Prod.fst := by
  simp [contains]

section InsertEntry

variable {key : String} {value : α} {left right entries : List (String × α)}

private theorem insertEntry_append_of_mem (h : key ∈ left.map Prod.fst) :
    insertEntry key value (left ++ right) = insertEntry key value left ++ right := by
  induction left with
  | nil => cases h
  | cons entry rest ih =>
    rw [List.cons_append, insertEntry, insertEntry]
    by_cases he : entry.1 = key
    · rw [if_pos he, if_pos he, List.cons_append]
    · rw [List.map_cons, List.mem_cons] at h
      rw [if_neg he, if_neg he, ih (h.resolve_left (Ne.symm he)), List.cons_append]

private theorem insertEntry_append_of_notMem (h : key ∉ left.map Prod.fst) :
    insertEntry key value (left ++ right) = left ++ insertEntry key value right := by
  induction left with
  | nil => rfl
  | cons entry rest ih =>
    rw [List.map_cons, List.mem_cons, not_or] at h
    rw [List.cons_append, insertEntry, if_neg (Ne.symm h.1), ih h.2, List.cons_append]

private theorem insertEntry_eq_map (hnodup : (entries.map Prod.fst).Nodup)
    (h : key ∈ entries.map Prod.fst) :
    insertEntry key value entries =
      entries.map fun e => (e.1, if key = e.1 then value else e.2) := by
  induction entries with
  | nil => cases h
  | cons entry rest ih =>
    rw [List.map_cons, List.nodup_cons] at hnodup
    rw [insertEntry, List.map_cons]
    by_cases he : entry.1 = key
    · -- The other keys are different, so their entries stay.
      have others : ∀ e ∈ rest, (e.1, if key = e.1 then value else e.2) = e := by
        intro e hm
        have hne : key ≠ e.1 := fun hk => hnodup.1 (he ▸ hk ▸ List.mem_map_of_mem hm)
        rw [if_neg hne]
      rw [if_pos he, if_pos he.symm, he, List.map_congr_left others, List.map_id']
    · rw [List.map_cons, List.mem_cons] at h
      rw [if_neg he, if_neg (Ne.symm he), ih hnodup.2 (h.resolve_left (Ne.symm he))]

private theorem filter_insertEntry (keeps : String → Bool) :
    (insertEntry key value entries).filter (fun e => keeps e.1) =
      if keeps key then insertEntry key value (entries.filter fun e => keeps e.1)
      else entries.filter fun e => keeps e.1 := by
  induction entries with
  | nil => cases h : keeps key <;> simp [insertEntry, h]
  | cons entry rest ih =>
    rw [insertEntry]
    by_cases he : entry.1 = key
    · subst he
      cases h : keeps entry.1 <;> simp [insertEntry, h]
    · rw [if_neg he, List.filter_cons, List.filter_cons, ih]
      cases h : keeps key <;> cases hentry : keeps entry.1 <;> simp [insertEntry, he]

end InsertEntry

private theorem insertEntry_mergedEntries (d new : Dict α) (key : String) (value : α) :
    insertEntry key value (d.mergedEntries new) = d.mergedEntries (new.insert key value) := by
  have filtered : (new.insert key value).entries.filter (fun e => !d.contains e.1) =
      if d.contains key then new.entries.filter fun e => !d.contains e.1
      else insertEntry key value (new.entries.filter fun e => !d.contains e.1) := by
    refine (filter_insertEntry fun k => !d.contains k).trans ?_
    cases d.contains key <;> rfl
  have keys : (d.entries.map fun e => (e.1, (new.get? e.1).getD e.2)).map Prod.fst =
      d.entries.map Prod.fst := by
    rw [List.map_map]
    rfl
  rw [mergedEntries, mergedEntries, filtered]
  simp only [get?_insert]
  cases hc : d.contains key with
  | true =>
    have hm := contains_iff.mp hc
    rw [insertEntry_append_of_mem (keys ▸ hm), insertEntry_eq_map (keys ▸ d.nodup) (keys ▸ hm),
      List.map_map, if_pos rfl]
    congr 1
    refine List.map_congr_left fun e _ => ?_
    by_cases he : key = e.1 <;> simp [he]
  | false =>
    have hm : key ∉ d.entries.map Prod.fst := fun hm => by simp [contains_iff.mpr hm] at hc
    rw [insertEntry_append_of_notMem (keys ▸ hm), if_neg Bool.false_ne_true]
    congr 1
    refine List.map_congr_left fun e he => ?_
    have hne : key ≠ e.1 := fun hk => hm (hk ▸ List.mem_map_of_mem he)
    rw [if_neg hne]

private theorem entries_insertAll_of_merged {d new merged : Dict α} {entries : List (String × α)}
    (h : merged.entries = d.mergedEntries new) :
    (merged.insertAll entries).entries = d.mergedEntries (new.insertAll entries) := by
  induction entries generalizing merged new with
  | nil => exact h
  | cons entry rest ih =>
    have inserted : (merged.insert entry.1 entry.2).entries =
        d.mergedEntries (new.insert entry.1 entry.2) := by
      rw [← insertEntry_mergedEntries, ← h]
      rfl
    exact ih inserted

/-- Writing entries one after the other merges in the dictionary of these entries. -/
theorem entries_insertAll (d : Dict α) (entries : List (String × α)) :
    (d.insertAll entries).entries = d.mergedEntries (ofList entries) :=
  entries_insertAll_of_merged (by simp [mergedEntries, get?, empty])

end Dict

end Pagewright
