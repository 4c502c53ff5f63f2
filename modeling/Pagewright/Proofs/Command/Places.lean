import Pagewright.Proofs.Command.Store

/-! Which places of a directory a path leads to. What is written into a folder by a path of plain
names stays below that folder. -/

namespace Pagewright

section Names

/-- Letters, digits, hyphens, underscores and points. -/
def isPathChar (c : Char) : Bool := c.isAlphanum || c = '-' || c = '_' || c = '.'

/-- A name that leads one folder down, wherever it is followed. -/
structure IsPlainName (name : List Char) : Prop where
  full : name ≠ []
  chars : ∀ c ∈ name, isPathChar c
  notHere : name ≠ ['.']
  notAbove : name ≠ ['.', '.']

instance : DecidablePred IsPlainName := fun name =>
  decidable_of_iff (name ≠ [] ∧ name.all isPathChar ∧ name ≠ ['.'] ∧ name ≠ ['.', '.'])
    ⟨fun ⟨full, chars, notHere, notAbove⟩ => ⟨full, List.all_eq_true.mp chars, notHere, notAbove⟩,
      fun h => ⟨h.full, List.all_eq_true.mpr h.chars, h.notHere, h.notAbove⟩⟩

/-- A path of plain names that are separated by slashes. -/
def IsPlainPath (path : String) : Prop := ∀ name ∈ pathNames path.toList, IsPlainName name

instance : DecidablePred IsPlainPath := fun path =>
  decidable_of_iff ((pathNames path.toList).all fun name => decide (IsPlainName name))
    (by simp [IsPlainPath])

theorem pathNames_ne_nil (cs : List Char) : pathNames cs ≠ [] := by
  cases cs with
  | nil => exact List.cons_ne_nil _ _
  | cons c rest =>
    rw [pathNames]
    split
    · exact List.cons_ne_nil _ _
    · split <;> exact List.cons_ne_nil _ _

theorem pathNames_of_notMem {cs : List Char} (h : '/' ∉ cs) : pathNames cs = [cs] := by
  induction cs with
  | nil => rfl
  | cons c rest ih =>
    obtain ⟨hc, hrest⟩ := not_or.mp (mt List.mem_cons.mpr h)
    rw [pathNames, if_neg fun e => hc e.symm, ih hrest]

/-- The names of a path are those before a slash and those behind it. -/
theorem pathNames_append (before after : List Char) :
    pathNames (before ++ '/' :: after) = pathNames before ++ pathNames after := by
  induction before with
  | nil => simp [pathNames]
  | cons c rest ih =>
    rw [List.cons_append, pathNames, pathNames]
    split
    · rw [ih, List.cons_append]
    · rw [ih]
      obtain ⟨first, more, hrest⟩ := List.exists_cons_of_ne_nil (pathNames_ne_nil rest)
      rw [hrest]
      rfl

theorem IsPlainName.isPlainPath {name : String} (h : IsPlainName name.toList) :
    IsPlainPath name := by
  have hslash : '/' ∉ name.toList := fun hm => absurd (h.chars '/' hm) (by decide)
  rw [IsPlainPath, pathNames_of_notMem hslash]
  exact List.forall_mem_singleton.mpr h

theorem IsPlainPath.append {a b : String} (ha : IsPlainPath a) (hb : IsPlainPath b) :
    IsPlainPath (a ++ "/" ++ b) := by
  have htext : (a ++ "/" ++ b).toList = a.toList ++ '/' :: b.toList := by simp
  rw [IsPlainPath, htext, pathNames_append]
  exact List.forall_mem_append.mpr ⟨ha, hb⟩

theorem IsPlainName.not_isRelative {name : List Char} (h : IsPlainName name) :
    ¬ Directory.isRelative (String.ofList name) := by
  have hne (text : String) (hn : name ≠ text.toList) : String.ofList name ≠ text := fun e => by
    rw [← e, String.toList_ofList] at hn
    exact hn rfl
  simp [Directory.isRelative, hne "" h.full, hne "." h.notHere, hne ".." h.notAbove]

end Names

namespace Directory

/-- The names of a path, as texts. -/
def namesOf (path : String) : List String := (pathNames path.toList).map String.ofList

/-- Where names lead one after the other, whatever is there. -/
def follow? (place : Place) (names : List String) : Option Place :=
  names.foldlM (fun place name =>
    if isRelative name then goRelative? place name else some (place ++ [name])) place

theorem follow?_append (place : Place) (a b : List String) :
    follow? place (a ++ b) = (follow? place a).bind fun next => follow? next b := by
  rw [follow?, List.foldlM_append]
  rfl

/-- Plain names lead down. -/
theorem follow?_of_plain {names : List String} (h : ∀ name ∈ names, ¬ isRelative name)
    (place : Place) : follow? place names = some (place ++ names) := by
  induction names generalizing place with
  | nil => rw [List.append_nil]; rfl
  | cons name rest ih =>
    obtain ⟨hname, hrest⟩ := List.forall_mem_cons.mp h
    have hstep := ih hrest (place ++ [name])
    rw [List.append_assoc, List.singleton_append] at hstep
    rw [follow?, List.foldlM_cons, if_neg hname]
    exact hstep

theorem enter?_eq_some {d : Directory} {place next : Place} {name : String}
    (h : d.enter? place name = some next) : follow? place [name] = some next := by
  rw [follow?, List.foldlM_cons]
  unfold enter? at h
  split at h
  · next hrelative =>
    rw [if_pos hrelative, h]
    rfl
  · next hplain =>
    obtain ⟨-, hnext⟩ := Option.ite_none_right_eq_some.mp h
    rw [if_neg hplain, ← hnext]
    rfl

theorem follow?_of_enter? {d : Directory} {names : List String} {place next : Place}
    (h : names.foldlM d.enter? place = some next) : follow? place names = some next := by
  induction names generalizing place with
  | nil => exact h
  | cons name rest ih =>
    rw [List.foldlM_cons] at h
    obtain ⟨between, hname, hrest⟩ := Option.bind_eq_some_iff.mp h
    rw [← List.singleton_append, follow?_append, enter?_eq_some hname]
    exact ih hrest

/-- A path whose folder exists leads where its names lead. -/
theorem follow?_of_locate? {d : Directory} {path : String} {place : Place}
    (h : d.locate? path = some place) : follow? [] (namesOf path) = some place := by
  obtain ⟨⟨above, last⟩, hsplit, h⟩ := Option.bind_eq_some_iff.mp h
  obtain ⟨folder, hfolder, h⟩ := Option.bind_eq_some_iff.mp h
  obtain rfl := Option.some.inj h
  unfold split? at hsplit
  split at hsplit
  · cases hsplit
  · split at hsplit
    · next first more hnames =>
      split at hsplit
      · cases hsplit
      · next hplain =>
        obtain ⟨rfl, rfl⟩ := Prod.mk.inj (Option.some.inj hsplit)
        have hall : namesOf path = more.reverse ++ [first] := by
          rw [← List.reverse_cons, ← hnames, List.reverse_reverse]
          rfl
        rw [hall, follow?_append, follow?_of_enter? hfolder, Option.bind_some]
        exact follow?_of_plain (List.forall_mem_singleton.mpr hplain) folder
    · cases hsplit

section Files

variable {d d' : Directory} {place : Place}

theorem file?_put_of_ne {target : Place} (h : place ≠ target) (content : String) :
    (d.put target content).file? place = d.file? place := by
  unfold put file?
  split
  · dsimp only
    induction d.files with
    | nil => rfl
    | cons f rest ih =>
      rw [List.map_cons]
      split
      · next hf =>
        obtain ⟨key, text⟩ := f
        obtain rfl : key = target := hf
        have hkey : (place == key) = false := beq_false_of_ne h
        rw [List.lookup_cons, List.lookup_cons, hkey, ih]
      · obtain ⟨key, text⟩ := f
        rw [List.lookup_cons, List.lookup_cons, ih]
  · have hkey : (place == target) = false := beq_false_of_ne h
    rw [List.lookup_append, List.lookup_cons, hkey]
    exact Option.or_none

/-- Writing leaves alone what lies elsewhere. -/
theorem file?_write?_of_ne {path content : String} (h : d.write? path content = some d')
    (hplace : follow? [] (namesOf path) ≠ some place) : d'.file? place = d.file? place := by
  obtain ⟨target, htarget, h⟩ := Option.bind_eq_some_iff.mp h
  obtain ⟨-, h⟩ := Option.ite_none_left_eq_some.mp h
  obtain rfl := Option.some.inj h
  refine file?_put_of_ne (fun e => hplace ?_) content
  rw [follow?_of_locate? htarget, e]

theorem files_enterOrCreate? {name : String} {next : Place}
    (h : d.enterOrCreate? place name = some (d', next)) : d'.files = d.files := by
  unfold enterOrCreate? at h
  extract_lets target at h
  split at h
  · obtain ⟨_, -, h⟩ := Option.map_eq_some_iff.mp h
    rw [← (Prod.mk.inj h).1]
  split at h
  · rw [← (Prod.mk.inj (Option.some.inj h)).1]
  split at h
  · cases h
  · rw [← (Prod.mk.inj (Option.some.inj h)).1]

/-- Creating folders leaves all files alone. -/
theorem files_createAlong (d : Directory) (place : Place) (names : List String) :
    (d.createAlong place names).1.files = d.files := by
  induction names generalizing d place with
  | nil => rfl
  | cons name rest ih =>
    rw [createAlong]
    split
    · next made next hmade => rw [ih, files_enterOrCreate? hmade]
    · rfl

theorem files_createAbove (d : Directory) (path : String) :
    (d.createAbove path).1.files = d.files := by
  unfold createAbove
  split
  · exact files_createAlong d [] _
  · rfl

end Files

/-- The files of two directories differ below a folder only, if they differ at all. -/
def DiffersBelow (folder : String) (before after : Directory) : Prop :=
  ∀ place, (∀ root, follow? [] (namesOf folder) = some root → ¬ root <+: place) →
    after.file? place = before.file? place

end Directory

namespace FileAccess

open Directory

theorem namesOf_pathIn (folder path : String) : ∃ names,
    (names = namesOf folder ∨ names ++ [""] = namesOf folder) ∧
      namesOf (pathIn folder path) = names ++ namesOf path := by
  unfold pathIn namesOf
  split
  · next hslash =>
    obtain ⟨text, htext⟩ := List.getLast?_eq_some_iff.mp hslash
    refine ⟨(pathNames text).map String.ofList, .inr ?_, ?_⟩
    · rw [htext, pathNames_append, List.map_append]
      rfl
    · rw [String.toList_append, htext, List.append_assoc, List.singleton_append, pathNames_append,
        List.map_append]
  · refine ⟨_, .inl rfl, ?_⟩
    have htext : (folder ++ "/" ++ path).toList = folder.toList ++ '/' :: path.toList := by simp
    rw [htext, pathNames_append, List.map_append]

/-- A plain path leads from a folder to a place below it. -/
theorem follow?_pathIn {folder path : String} (h : IsPlainPath path) :
    follow? [] (namesOf (pathIn folder path)) =
      (follow? [] (namesOf folder)).map (· ++ namesOf path) := by
  have hplain : ∀ name ∈ namesOf path, ¬ isRelative name := by
    intro name hm
    obtain ⟨cs, hcs, rfl⟩ := List.mem_map.mp hm
    exact (h cs hcs).not_isRelative
  obtain ⟨names, hnames, hall⟩ := namesOf_pathIn folder path
  have hroot : follow? [] names = follow? [] (namesOf folder) := by
    rcases hnames with rfl | hnames
    · rfl
    · rw [← hnames, follow?_append]
      cases follow? [] names <;> rfl
  rw [hall, follow?_append, hroot]
  cases follow? [] (namesOf folder) with
  | none => rfl
  | some root => exact follow?_of_plain hplain root

private theorem differsBelow_write {folder path content : String} {d d' : Directory}
    (h : IsPlainPath path) (hwrite : d.write? (pathIn folder path) content = some d') :
    DiffersBelow folder d d' := by
  intro place houtside
  refine file?_write?_of_ne hwrite fun hplace => ?_
  rw [follow?_pathIn h] at hplace
  obtain ⟨root, hroot, rfl⟩ := Option.map_eq_some_iff.mp hplace
  exact houtside root hroot (List.prefix_append root _)

private theorem createAbove_ofDirectory (path : String) (d : Directory) :
    (liftM (ofDirectory.createAbove path) : ExceptT Failure (StateM Directory) Bool).run.run d =
      (.ok (d.createAbove path).2, (d.createAbove path).1) := rfl

private theorem write_ofDirectory (path content : String) (d : Directory) :
    (liftM (ofDirectory.write path content) : ExceptT Failure (StateM Directory) Bool).run.run d =
      match d.write? path content with
      | some written => (.ok true, written)
      | none => (.ok false, d) := by
  have hwrite : (ofDirectory.write path content).run d = match d.write? path content with
      | some written => (true, written)
      | none => (false, d) := by
    change (match d.write? path content with
      | some written => (do set written; return true)
      | none => return false : StateM Directory Bool).run d = _
    cases d.write? path content <;> rfl
  change (match (ofDirectory.write path content).run d with
    | (ok, after) => ((Except.ok ok : Except Failure Bool), after)) = _
  rw [hwrite]
  cases d.write? path content <;> rfl

/-- A run goes on with the other files once the first one is written. -/
theorem writeProject_cons (folder : String) (file : SourceFile) (rest : List SourceFile)
    (d : Directory) : (ofDirectory.writeProject folder (file :: rest)).run.run d =
      if (d.createAbove (pathIn folder file.path)).2 then
        match (d.createAbove (pathIn folder file.path)).1.write? (pathIn folder file.path)
          file.content with
        | some written => (ofDirectory.writeProject folder rest).run.run written
        | none =>
          (.error (.unwritableProject folder), (d.createAbove (pathIn folder file.path)).1)
      else (.error (.unwritableProject folder), (d.createAbove (pathIn folder file.path)).1) := by
  rw [writeProject, run_bind, createAbove_ofDirectory]
  dsimp only
  cases (d.createAbove (pathIn folder file.path)).2 with
  | false => rfl
  | true =>
    rw [if_pos rfl]
    change (liftM (ofDirectory.write (pathIn folder file.path) file.content) >>= fun done =>
      if (!done) = true then _ else _ : ExceptT Failure (StateM Directory) Unit).run.run _ = _
    rw [run_bind, write_ofDirectory]
    cases (d.createAbove _).1.write? _ file.content <;> rfl

/-- Writing files by plain paths changes nothing outside the folder, whether it succeeds or not. -/
theorem differsBelow_writeProject {files : List SourceFile}
    (h : ∀ file ∈ files, IsPlainPath file.path) (folder : String) (d : Directory) :
    DiffersBelow folder d ((ofDirectory.writeProject folder files).run.run d).2 := by
  induction files generalizing d with
  | nil => exact fun _ _ => rfl
  | cons file rest ih =>
    obtain ⟨hfile, hrest⟩ := List.forall_mem_cons.mp h
    intro place houtside
    have hmade : (d.createAbove (pathIn folder file.path)).1.file? place = d.file? place :=
      congrArg (List.lookup place) (files_createAbove d _)
    rw [writeProject_cons]
    split
    · split
      · next written hwrite =>
        rw [ih hrest written place houtside, differsBelow_write hfile hwrite place houtside, hmade]
      · exact hmade
    · exact hmade

end FileAccess

end Pagewright
