/-!
Dictionaries that remember the order of insertion. Every key occurs once; writing to a key that
is already there keeps its place.
-/

namespace Pagewright

/-- Replaces the value at a key in place, or appends a new entry. -/
def insertEntry {α : Type} (key : String) (value : α) : List (String × α) → List (String × α)
  | [] => [(key, value)]
  | entry :: rest =>
    if entry.1 = key then (key, value) :: rest else entry :: insertEntry key value rest

theorem map_fst_insertEntry {α : Type} (key : String) (value : α) (entries : List (String × α)) :
    (insertEntry key value entries).map Prod.fst =
      if key ∈ entries.map Prod.fst then entries.map Prod.fst
      else entries.map Prod.fst ++ [key] := by
  induction entries with
  | nil => rfl
  | cons entry rest ih =>
    by_cases h : entry.1 = key
    · simp [insertEntry, h]
    · have h' : ¬ key = entry.1 := fun e => h e.symm
      simp only [insertEntry, h, if_false, List.map_cons, ih, List.mem_cons, h', false_or]
      split <;> simp

structure Dict (α : Type) where
  entries : List (String × α)
  nodup : (entries.map Prod.fst).Nodup

namespace Dict

variable {α : Type}

def empty : Dict α := ⟨[], List.nodup_nil⟩

instance : Inhabited (Dict α) := ⟨empty⟩

instance [DecidableEq α] : DecidableEq (Dict α) := fun a b =>
  decidable_of_iff (a.entries = b.entries) (by cases a; cases b; simp)

def insert (d : Dict α) (key : String) (value : α) : Dict α :=
  ⟨insertEntry key value d.entries, by
    rw [map_fst_insertEntry]
    split
    · exact d.nodup
    · next h => exact List.nodup_append.2 ⟨d.nodup, by simp, by
        intro a ha b hb hab
        simp only [List.mem_cons, List.not_mem_nil, or_false] at hb
        exact h (hb ▸ hab ▸ ha)⟩⟩

def get? (d : Dict α) (key : String) : Option α := (d.entries.find? fun e => e.1 = key).map Prod.snd

def insertAll (d : Dict α) (entries : List (String × α)) : Dict α :=
  entries.foldl (fun d e => d.insert e.1 e.2) d

/-- The dictionary that results from writing the entries to an empty one. -/
def ofList (entries : List (String × α)) : Dict α := empty.insertAll entries

def isEmpty (d : Dict α) : Bool := d.entries.isEmpty

def contains (d : Dict α) (key : String) : Bool := d.entries.any fun e => e.1 = key

/-- Keeps the values for which a function gives a result, in order. -/
def filterMap {β : Type} (f : α → Option β) (d : Dict α) : Dict β :=
  ⟨d.entries.filterMap fun e => (f e.2).map (e.1, ·), by
    refine List.Sublist.nodup ?_ d.nodup
    induction d.entries with
    | nil => simp
    | cons e rest ih =>
      simp only [List.filterMap_cons, List.map_cons]
      cases f e.2 with
      | none => exact ih.cons _
      | some b => exact ih.cons_cons _⟩

end Dict

end Pagewright
