import Mathlib.Data.List.Nodup
import Pagewright.Command.Run
import Pagewright.Proofs.Dict

/-! Runs on files that are kept by path alone, in folders that are always there. -/

namespace Pagewright

namespace FileAccess

/-- Files by path. A path that is written again takes the new content. -/
def ofStore : FileAccess (StateM (Dict String)) where
  read path := do return (← get).get? path
  write path content := do
    modify fun store => store.insert path content
    return true
  createAbove _ := return true

/-- The files after those of a project have been written into a folder. -/
def stored (folder : String) (store : Dict String) (files : List SourceFile) : Dict String :=
  files.foldl (fun store file => store.insert (pathIn folder file.path) file.content) store

section Runs

variable {α β : Type} {store : Dict String}

/-- Where a path leads to a text that reads as a document. -/
def Records (store : Dict String) (path : String) (decode : Decoder α) (a : α) : Prop :=
  ∃ text, store.get? path = some text ∧ decode.read? text = some a

/-- A run goes on from where its first part has led, unless that fails. -/
theorem run_bind {σ : Type} (first : ExceptT Failure (StateM σ) α)
    (next : α → ExceptT Failure (StateM σ) β) (store : σ) :
    (first >>= next).run.run store = match first.run.run store with
      | (.ok a, after) => (next a).run.run after
      | (.error failure, after) => (.error failure, after) := by
  rw [ExceptT.run_bind, StateT.run_bind]
  change (match first.run.run store with | (result, after) => _) = _
  rcases first.run.run store with ⟨_ | a, after⟩ <;> rfl

theorem load_ofStore {path : String} {decode : Decoder α} {a : α}
    (h : Records store path decode a) :
    (ofStore.load decode path).run.run store = (.ok a, store) := by
  obtain ⟨text, htext, hread⟩ := h
  have hfile : (liftM (ofStore.read path) : ExceptT Failure (StateM (Dict String)) _).run.run
      store = (.ok (some text), store) := by
    rw [← htext]
    rfl
  unfold load
  rw [run_bind, hfile]
  simp only [hread]
  rfl

end Runs

variable {folder : String} {store : Dict String} {files : List SourceFile}

theorem writeProject_ofStore (folder : String) (store : Dict String) (files : List SourceFile) :
    (ofStore.writeProject folder files).run.run store = (.ok (), stored folder store files) := by
  induction files generalizing store with
  | nil => rfl
  | cons file rest ih => exact ih (store.insert (pathIn folder file.path) file.content)

theorem pathIn_inj {a b : String} (h : pathIn folder a = pathIn folder b) : a = b := by
  unfold pathIn at h
  have h := congrArg String.toList h
  apply String.toList_injective
  split at h
  · simpa using h
  · simpa using h

private theorem stored_other {path : String} (h : ∀ f ∈ files, pathIn folder f.path ≠ path) :
    (stored folder store files).get? path = store.get? path := by
  induction files generalizing store with
  | nil => rfl
  | cons file rest ih =>
    obtain ⟨hfile, hrest⟩ := List.forall_mem_cons.mp h
    rw [stored, List.foldl_cons]
    change (stored folder _ rest).get? path = _
    rw [ih hrest, Dict.get?_insert, if_neg hfile]

/-- Where no two files have one path, each of them is there in the end. -/
theorem stored_get? (h : (files.map SourceFile.path).Nodup) {file : SourceFile}
    (hfile : file ∈ files) :
    (stored folder store files).get? (pathIn folder file.path) = some file.content := by
  induction files generalizing store with
  | nil => cases hfile
  | cons first rest ih =>
    rw [List.map_cons, List.nodup_cons] at h
    change (stored folder (store.insert _ _) rest).get? _ = _
    rcases List.mem_cons.mp hfile with rfl | hfile
    · rw [stored_other, Dict.get?_insert, if_pos rfl]
      intro f hf hsame
      exact h.1 (pathIn_inj hsame ▸ List.mem_map_of_mem hf)
    · exact ih h.2 hfile

end FileAccess

end Pagewright
