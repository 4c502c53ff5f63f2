import Mathlib.Data.List.Nodup
import Pagewright.Proofs.Site.Project

/-! The paths of a project. Directories of pages are told apart by their slugs, and no file of a
page could be taken for the directory of another page. -/

namespace Pagewright

section PathText

/-- The first name of a path is no slug, so that it cannot be the directory of a page. -/
def NoPageFolder (name : String) : Prop :=
  ∃ before c after, name.toList = before ++ c :: after ∧ '/' ∉ before ∧ c ≠ '/' ∧ ¬ isSlugChar c

theorem slash_notMem_of_isSlug {slug : String} (h : isSlug slug) : '/' ∉ slug.toList := by
  intro hslash
  have hall := (Bool.and_eq_true_iff.mp h).2
  cases List.all_eq_true.mp hall '/' hslash

/-- Paths that begin with one name each have that name and the rest in common. -/
theorem split_at_slash {a b : List Char} {c d : List Char} (ha : '/' ∉ a) (hb : '/' ∉ b)
    (h : a ++ '/' :: c = b ++ '/' :: d) : a = b ∧ c = d := by
  induction a generalizing b with
  | nil =>
    cases b with
    | nil => exact ⟨rfl, (List.cons.inj h).2⟩
    | cons y b => exact absurd (List.cons.inj h).1 fun e => hb (e ▸ List.mem_cons_self)
  | cons x a ih =>
    cases b with
    | nil => exact absurd (List.cons.inj h).1 fun e => ha (e ▸ List.mem_cons_self)
    | cons y b =>
      obtain ⟨rfl, htail⟩ := List.cons.inj h
      obtain ⟨rfl, rfl⟩ := ih (fun m => ha (List.mem_cons_of_mem _ m))
        (fun m => hb (List.mem_cons_of_mem _ m)) htail
      exact ⟨rfl, rfl⟩

theorem NoPageFolder.ne_slug {name : String} (h : NoPageFolder name) {slug rest : List Char}
    (hslug : slug.all isSlugChar) : name.toList ≠ slug ++ '/' :: rest := by
  obtain ⟨before, c, after, hname, hbefore, hc, hchar⟩ := h
  rw [hname]
  intro he
  rw [List.append_eq_append_iff] at he
  rcases he with ⟨more, rfl, he⟩ | ⟨more, rfl, he⟩
  · cases more with
    | nil => exact hc (List.cons.inj he).1
    | cons x more =>
      obtain ⟨rfl, -⟩ := List.cons.inj he
      exact hchar (List.all_eq_true.mp hslug c (by simp))
  · cases more with
    | nil => exact hc (List.cons.inj he).1.symm
    | cons x more =>
      obtain ⟨rfl, -⟩ := List.cons.inj he
      exact hbefore (by simp)

end PathText

namespace Page

variable {p q : Page}

/-- The place of a file below the common folder of all pages. -/
private def route (p : Page) (name : List Char) : List Char :=
  if p.slug = "index" then name else p.slug.toList ++ '/' :: name

private theorem toList_directory (p : Page) (name : String) :
    (p.directory ++ "/" ++ name).toList = "app/".toList ++ p.route name.toList := by
  unfold directory route
  split
  · simp
  · simp

/-- Files of pages with other slugs, and other files of one page, have other paths. -/
theorem directory_append_inj (hp : isSlug p.slug) (hq : isSlug q.slug) {name other : String}
    (hname : NoPageFolder name) (hother : NoPageFolder other)
    (h : p.directory ++ "/" ++ name = q.directory ++ "/" ++ other) :
    p.slug = q.slug ∧ name = other := by
  have hroute : p.route name.toList = q.route other.toList := by
    have h := congrArg String.toList h
    rw [toList_directory, toList_directory] at h
    exact List.append_cancel_left h
  have hall {slug : String} (h : isSlug slug) : slug.toList.all isSlugChar :=
    (Bool.and_eq_true_iff.mp h).2
  unfold route at hroute
  split at hroute
  · next hpi =>
    split at hroute
    · next hqi => exact ⟨hpi.trans hqi.symm, String.toList_injective hroute⟩
    · exact absurd hroute (hname.ne_slug (hall hq))
  · split at hroute
    · exact absurd hroute.symm (hother.ne_slug (hall hp))
    · obtain ⟨hslug, hrest⟩ := split_at_slash (slash_notMem_of_isSlug hp)
        (slash_notMem_of_isSlug hq) hroute
      exact ⟨String.toList_injective hslug, String.toList_injective hrest⟩

theorem directory_append_injective (p : Page) :
    Function.Injective fun name : String => p.directory ++ "/" ++ name := by
  intro a b h
  have h := congrArg String.toList h
  simp only [String.toList_append, List.append_right_inj] at h
  exact String.toList_injective h

theorem directory_append_ne_manifest (p : Page) (name : String) :
    p.directory ++ "/" ++ name ≠ "package.json" := by
  intro h
  have hhead := congrArg (fun path => path.toList.head?) h
  unfold directory at hhead
  split at hhead <;> simp [String.toList_append] at hhead

theorem isSlug_of_validate (h : p.validate = .ok ()) : isSlug p.slug := by
  unfold validate at h
  by_contra hslug
  rw [if_pos (by simpa using hslug)] at h
  cases h

end Page

section FileAt

variable {files : List SourceFile} {path : String} {file : SourceFile}

theorem fileAt?_eq_some (h : fileAt? files path = some file) : file ∈ files ∧ file.path = path :=
  ⟨List.mem_of_find?_eq_some h, by simpa using List.find?_some h⟩

theorem exists_fileAt? (h : path ∈ files.map SourceFile.path) :
    ∃ file, fileAt? files path = some file := by
  obtain ⟨file, hfile, rfl⟩ := List.mem_map.mp h
  rw [← Option.isSome_iff_exists, fileAt?, List.find?_isSome]
  exact ⟨file, hfile, by simp⟩

end FileAt

/-- The names of the files that animations need, below the directory of their page. -/
def animationFileNames (animations : List Animation) : Backend → List String
  | .css => if animations = [] then [] else [stylesheetName]
  | .script =>
    if animations = [] then []
    else animations.map (fun a => scriptFolder ++ ("/" ++ (a.id ++ ".ts"))) ++
      [scriptFolder ++ "/index.tsx"]
  | .motion => []

theorem mem_animationFileNames_iff {animations : List Animation} {backend : Backend}
    {name : String} : name ∈ animationFileNames animations backend ↔ animations ≠ [] ∧
      (backend = .css ∧ name = stylesheetName ∨
        backend = .script ∧ ((∃ a ∈ animations, name = scriptFolder ++ ("/" ++ (a.id ++ ".ts"))) ∨
          name = scriptFolder ++ "/index.tsx")) := by
  unfold animationFileNames
  by_cases hnone : animations = []
  · cases backend <;> simp [hnone]
  · cases backend <;> simp [hnone, eq_comm]

theorem mem_animationFiles_iff {directory : String} {animations : List Animation}
    {backend : Backend} {file : SourceFile} : file ∈ animationFiles directory animations backend ↔
      animations ≠ [] ∧ (backend = .css ∧ file = ⟨directory ++ "/" ++ stylesheetName,
          joinLines (animations.map Animation.stylesheet)⟩ ∨
        backend = .script ∧ ((∃ a ∈ animations, file = scriptFile directory a) ∨
          file = ⟨directory ++ "/" ++ scriptFolder ++ "/index.tsx", scriptRunner animations⟩)) := by
  unfold animationFiles
  by_cases hnone : animations = []
  · cases backend <;> simp [hnone]
  · cases backend <;> simp [hnone, eq_comm]

theorem scriptFile_path (directory : String) (a : Animation) : (scriptFile directory a).path =
    directory ++ "/" ++ (scriptFolder ++ ("/" ++ (a.id ++ ".ts"))) := by
  simp only [scriptFile, String.append_assoc]

theorem runner_path (directory : String) : directory ++ "/" ++ scriptFolder ++ "/index.tsx" =
    directory ++ "/" ++ (scriptFolder ++ "/index.tsx") := String.append_assoc

theorem stylesheetName_ne_script (rest : String) : stylesheetName ≠ scriptFolder ++ rest := by
  intro h
  have hhead := congrArg (fun name => name.toList.head?) h
  simp [stylesheetName, scriptFolder, String.toList_append] at hhead

theorem script_ne_runner (id : String) :
    scriptFolder ++ ("/" ++ (id ++ ".ts")) ≠ scriptFolder ++ "/index.tsx" := by
  intro h
  have hlast := congrArg (fun name => name.toList.reverse.head?) h
  simp [String.toList_append, scriptFolder] at hlast

theorem animationFiles_paths (directory : String) (animations : List Animation)
    (backend : Backend) : (animationFiles directory animations backend).map SourceFile.path =
      (animationFileNames animations backend).map (directory ++ "/" ++ ·) := by
  unfold animationFiles animationFileNames
  by_cases hnone : animations = []
  · cases backend <;> simp [hnone]
  · cases backend <;> simp [hnone, scriptFile, String.append_assoc]

namespace Site

variable {s : Site} {formatting : Formatting} {files : List SourceFile}

/-- The names of the files of a page, below its directory. -/
def fileNames (s : Site) (p : Page) : List String :=
  "page.tsx" :: (if s.hasAuth then ["layout.tsx"] else []) ++
    animationFileNames (s.animationsFor p) s.backend

theorem pageFiles_paths {p : Page} (h : s.pageFiles formatting p = .ok files) :
    files.map SourceFile.path = (s.fileNames p).map (p.directory ++ "/" ++ ·) := by
  obtain ⟨page, layout, hpage, hlayout, rfl⟩ := pageFiles_eq_ok_iff.mp h
  obtain ⟨source, -, rfl⟩ := pageFile_eq_ok_iff.mp hpage
  rw [List.map_append, List.map_cons, layoutFiles_paths hlayout, animationFiles_paths, fileNames,
    List.map_append, List.map_cons]
  congr 2
  · rw [String.append_assoc]
    rfl
  · split <;> simp [String.append_assoc]

/-- Where the files of a project lie: those of each page in its directory, and the manifest. -/
theorem project_paths (h : s.project formatting = .ok files) : files.map SourceFile.path =
    (s.pages.flatMap fun p => (s.fileNames p).map (p.directory ++ "/" ++ ·)) ++
      ["package.json"] := by
  obtain ⟨-, -, parts, hparts, rfl⟩ := project_eq_ok_iff.mp h
  rw [List.map_append, List.map_flatten]
  congr 1
  clear h
  generalize s.pages = pages at hparts ⊢
  induction hparts with
  | nil => rfl
  | @cons p part pages parts hpart _ ih =>
    rw [List.map_cons, List.flatten_cons, pageFiles_paths hpart, ih, List.flatMap_cons]

theorem noPageFolder_stylesheetName : NoPageFolder stylesheetName :=
  ⟨"animations".toList, '.', "css".toList, by decide, by decide, by decide, by decide⟩

theorem noPageFolder_scriptFolder (rest : String) : NoPageFolder (scriptFolder ++ rest) :=
  ⟨[], '_', "animations".toList ++ rest.toList, by simp [scriptFolder], by simp, by decide,
    by decide⟩

theorem noPageFolder_page : NoPageFolder "page.tsx" :=
  ⟨"page".toList, '.', "tsx".toList, by decide, by decide, by decide, by decide⟩

theorem fileNames_noPageFolder (p : Page) : ∀ name ∈ s.fileNames p, NoPageFolder name := by
  have hlayout : NoPageFolder "layout.tsx" :=
    ⟨"layout".toList, '.', "tsx".toList, by decide, by decide, by decide, by decide⟩
  intro name hm
  rcases List.mem_append.mp hm with hm | hm
  · rcases List.mem_cons.mp hm with rfl | hm
    · exact noPageFolder_page
    · split at hm
      · rw [List.mem_singleton.mp hm]
        exact hlayout
      · cases hm
  · obtain ⟨-, ⟨-, rfl⟩ | ⟨-, ⟨a, -, rfl⟩ | rfl⟩⟩ := mem_animationFileNames_iff.mp hm
    · exact noPageFolder_stylesheetName
    · exact noPageFolder_scriptFolder _
    · exact noPageFolder_scriptFolder _

theorem mem_pageFiles_iff {p : Page} {part : List SourceFile}
    (hpart : s.pageFiles formatting p = .ok part) {file : SourceFile} : file ∈ part ↔
      s.pageFile formatting p = .ok file ∨
        (∃ layout, s.layoutFiles formatting p = .ok layout ∧ file ∈ layout) ∨
        file ∈ animationFiles p.directory (s.animationsFor p) s.backend := by
  obtain ⟨page, layout, hpage, hlayout, rfl⟩ := pageFiles_eq_ok_iff.mp hpart
  rw [hpage, hlayout, List.mem_append, List.mem_cons, or_assoc]
  simp only [Except.ok.injEq, exists_eq_left', @eq_comm _ page]

/-- What lies in the directory of a page belongs to that page. -/
theorem mem_pageFiles_of_path (h : s.project formatting = .ok files) {p : Page} (hp : p ∈ s.pages)
    {part : List SourceFile} (hpart : s.pageFiles formatting p = .ok part) {name : String}
    (hname : NoPageFolder name) {file : SourceFile} (hfile : file ∈ files)
    (hpath : file.path = p.directory ++ "/" ++ name) : file ∈ part := by
  obtain ⟨-, ⟨hvalid, hslugs⟩, -⟩ := project_eq_ok_iff.mp h
  have hslug {q : Page} (hq : q ∈ s.pages) : isSlug q.slug := Page.isSlug_of_validate (hvalid q hq)
  rcases (mem_project_iff h).mp hfile with ⟨q, hq, other, hother, hm⟩ | rfl
  · have hpaths := List.mem_map_of_mem (f := SourceFile.path) hm
    rw [pageFiles_paths hother, hpath] at hpaths
    obtain ⟨name', hname', hsame⟩ := List.mem_map.mp hpaths
    obtain ⟨heq, -⟩ := Page.directory_append_inj (hslug hq) (hslug hp)
      (fileNames_noPageFolder q name' hname') hname hsame
    obtain rfl := List.inj_on_of_nodup_map hslugs hq hp heq
    obtain rfl := Except.ok.inj (hother.symm.trans hpart)
    exact hm
  · exact absurd hpath.symm (Page.directory_append_ne_manifest p name)

/-- Whether a file lies in the directory of a page depends on its name alone. -/
theorem mem_paths_iff (h : s.project formatting = .ok files) {p : Page} (hp : p ∈ s.pages)
    {name : String} (hname : NoPageFolder name) :
    p.directory ++ "/" ++ name ∈ files.map SourceFile.path ↔ name ∈ s.fileNames p := by
  obtain ⟨part, hpart⟩ := exists_pageFiles h hp
  have hpaths : name ∈ s.fileNames p ↔
      p.directory ++ "/" ++ name ∈ part.map SourceFile.path := by
    rw [pageFiles_paths hpart]
    exact (List.mem_map_of_injective p.directory_append_injective).symm
  rw [hpaths]
  constructor
  · intro hm
    obtain ⟨file, hfile, hpath⟩ := List.mem_map.mp hm
    exact hpath ▸ List.mem_map_of_mem (mem_pageFiles_of_path h hp hpart hname hfile hpath)
  · intro hm
    obtain ⟨file, hfile, hpath⟩ := List.mem_map.mp hm
    exact hpath ▸ List.mem_map_of_mem ((mem_project_iff h).mpr (.inl ⟨p, hp, part, hpart, hfile⟩))

variable {p : Page} {part : List SourceFile} {file : SourceFile}

private theorem layout_path (hpart : ∃ layout, s.layoutFiles formatting p = .ok layout ∧
    file ∈ layout) : file.path = p.directory ++ "/" ++ "layout.tsx" := by
  obtain ⟨layout, hlayout, hm⟩ := hpart
  have hpaths := List.mem_map_of_mem (f := SourceFile.path) hm
  rw [layoutFiles_paths hlayout] at hpaths
  split at hpaths
  · rw [List.mem_singleton.mp hpaths, String.append_assoc]
    rfl
  · cases hpaths

private theorem page_path (h : s.pageFile formatting p = .ok file) :
    file.path = p.directory ++ "/" ++ "page.tsx" := by
  obtain ⟨source, -, rfl⟩ := pageFile_eq_ok_iff.mp h
  rw [String.append_assoc]
  rfl

theorem pageFile_of_path (hpart : s.pageFiles formatting p = .ok part) (hm : file ∈ part)
    (hpath : file.path = p.directory ++ "/" ++ "page.tsx") :
    s.pageFile formatting p = .ok file := by
  rcases (mem_pageFiles_iff hpart).mp hm with hpage | hlayout | hanimation
  · exact hpage
  · have hname := p.directory_append_injective (hpath.symm.trans (layout_path hlayout))
    exact absurd hname (by decide)
  · have hpaths := List.mem_map_of_mem (f := SourceFile.path) hanimation
    rw [animationFiles_paths, hpath,
      List.mem_map_of_injective p.directory_append_injective] at hpaths
    obtain ⟨-, ⟨-, hname⟩ | ⟨-, ⟨a, -, hname⟩ | hname⟩⟩ := mem_animationFileNames_iff.mp hpaths
    · exact absurd hname (by decide)
    · have hhead := congrArg (fun name => name.toList.head?) hname
      simp [scriptFolder, String.toList_append] at hhead
    · exact absurd hname (by decide)

theorem mem_animationFiles_of_path (hpart : s.pageFiles formatting p = .ok part) (hm : file ∈ part)
    {name : String} (hpath : file.path = p.directory ++ "/" ++ name) (hpage : name ≠ "page.tsx")
    (hlayout : name ≠ "layout.tsx") :
    file ∈ animationFiles p.directory (s.animationsFor p) s.backend := by
  rcases (mem_pageFiles_iff hpart).mp hm with hm | hm | hm
  · exact absurd (p.directory_append_injective (hpath.symm.trans (page_path hm))) hpage
  · exact absurd (p.directory_append_injective (hpath.symm.trans (layout_path hm))) hlayout
  · exact hm

end Site

end Pagewright
