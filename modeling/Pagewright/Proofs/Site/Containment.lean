import Pagewright.Proofs.Command.Places
import Pagewright.Proofs.Site.Artifacts

/-! The shape of a project, path by path, and why no file of it can lie outside the folder that it
is written into. -/

namespace Pagewright

section Names

theorem isPlainName_of_isSlug {slug : String} (h : isSlug slug) : IsPlainName slug.toList := by
  obtain ⟨hfull, hall⟩ := Bool.and_eq_true_iff.mp h
  have hpoint : '.' ∉ slug.toList := fun hm => by cases List.all_eq_true.mp hall '.' hm
  refine ⟨?_, fun c hc => ?_, fun e => hpoint (by simp [e]), fun e => hpoint (by simp [e])⟩
  · simpa using hfull
  · have hchar := List.all_eq_true.mp hall c hc
    simp only [isSlugChar, Bool.or_eq_true] at hchar
    rcases hchar with (hlower | hdigit) | hhyphen
    · have halpha : c.isAlpha := Bool.or_eq_true_iff.mpr (.inr hlower)
      simp [isPathChar, Char.isAlphanum, halpha]
    · simp [isPathChar, Char.isAlphanum, hdigit]
    · simp [isPathChar, hhyphen]

theorem isPlainName_script {id : String} (h : isAnimationId id) :
    IsPlainName (id ++ ".ts").toList := by
  have hall := (Bool.and_eq_true_iff.mp h).2
  have htext : (id ++ ".ts").toList = id.toList ++ ['.', 't', 's'] := by simp
  have hlast : (id ++ ".ts").toList.getLast? = some 's' := by simp [htext]
  refine ⟨?_, ?_, ?_, ?_⟩
  · simp [htext]
  · intro c hc
    rw [htext, List.mem_append] at hc
    rcases hc with hc | hc
    · have hchar := List.all_eq_true.mp hall c hc
      simp only [isAnimationIdChar, Bool.or_eq_true] at hchar
      rcases hchar with (halphanum | hhyphen) | hunderscore
      · simp [isPathChar, halphanum]
      · simp [isPathChar, hhyphen]
      · simp [isPathChar, hunderscore]
    · have hextension : ['.', 't', 's'].all isPathChar := by decide
      exact List.all_eq_true.mp hextension c hc
  · intro e
    rw [e] at hlast
    cases hlast
  · intro e
    rw [e] at hlast
    cases hlast

end Names

/-- The directory of a page is a path of plain names. -/
theorem Page.isPlainPath_directory {p : Page} (h : isSlug p.slug) : IsPlainPath p.directory := by
  have happ : IsPlainPath "app" := by decide
  unfold directory
  split
  · exact happ
  · exact happ.append (isPlainName_of_isSlug h).isPlainPath

namespace Site

/-- The paths of the files of a page, in order: the page, its layout, and what the animations of
its elements need. -/
def pagePaths (s : Site) (p : Page) : List String :=
  let directory := if p.slug = "index" then "app" else "app/" ++ p.slug
  let ids := (s.animations.filter fun a => a.elementId ∈ Forest.ids p.layout).map Animation.id
  [directory ++ "/page.tsx"] ++ (if s.hasAuth then [directory ++ "/layout.tsx"] else []) ++
    if ids = [] then []
    else match s.backend with
      | .css => [directory ++ "/animations.css"]
      | .script => ids.map (fun id => directory ++ "/_animations/" ++ id ++ ".ts") ++
          [directory ++ "/_animations/index.tsx"]
      | .motion => []

variable {s : Site} {formatting : Formatting} {files : List SourceFile}

theorem pagePaths_eq (s : Site) (p : Page) :
    s.pagePaths p = (s.fileNames p).map (p.directory ++ "/" ++ ·) := by
  have hscript (id : String) : p.directory ++ "/_animations/" ++ id ++ ".ts" =
      p.directory ++ "/" ++ (scriptFolder ++ ("/" ++ (id ++ ".ts"))) := by
    simp only [String.append_assoc]
    rfl
  have hrunner : p.directory ++ "/_animations/index.tsx" =
      p.directory ++ "/" ++ (scriptFolder ++ "/index.tsx") := by
    rw [String.append_assoc]
    rfl
  unfold pagePaths fileNames animationFileNames
  rw [← animationsFor_eq]
  extract_lets directory ids
  have hnone : ids = [] ↔ s.animationsFor p = [] := List.map_eq_nil_iff
  have hdirectory : directory = p.directory := rfl
  rw [hdirectory, List.map_append]
  congr 1
  · cases s.hasAuth <;> simp [String.append_assoc]
  · by_cases hids : ids = []
    · cases s.backend <;> simp [hids, hnone.mp hids]
    · have hne : s.animationsFor p ≠ [] := fun e => hids (hnone.mpr e)
      cases s.backend with
      | css => simp [hids, hne, stylesheetName, String.append_assoc]
      | script => simp [hids, hne, ids, hscript, hrunner]
      | motion => simp

private theorem fileNames_plain (hids : ∀ a ∈ s.animations, isAnimationId a.id) (p : Page) :
    ∀ name ∈ s.fileNames p, IsPlainPath name := by
  have hfolder : IsPlainPath scriptFolder := by decide
  have hrunner : IsPlainPath (scriptFolder ++ "/index.tsx") := by decide
  intro name hm
  rcases List.mem_append.mp hm with hm | hm
  · rcases List.mem_cons.mp hm with rfl | hm
    · decide
    · split at hm
      · rw [List.mem_singleton.mp hm]
        decide
      · cases hm
  · obtain ⟨-, ⟨-, rfl⟩ | ⟨-, ⟨a, ha, rfl⟩ | rfl⟩⟩ := mem_animationFileNames_iff.mp hm
    · decide
    · rw [← String.append_assoc]
      exact hfolder.append (isPlainName_script (hids a (List.mem_of_mem_filter ha))).isPlainPath
    · exact hrunner

theorem isPlainPath_of_mem (h : s.project formatting = .ok files) :
    ∀ file ∈ files, IsPlainPath file.path := by
  obtain ⟨⟨-, hids⟩, ⟨hvalid, -⟩, -⟩ := project_eq_ok_iff.mp h
  intro file hfile
  have hm := List.mem_map_of_mem (f := SourceFile.path) hfile
  rw [project_paths h] at hm
  rcases List.mem_append.mp hm with hm | hm
  · obtain ⟨p, hp, hm⟩ := List.mem_flatMap.mp hm
    obtain ⟨name, hname, hpath⟩ := List.mem_map.mp hm
    rw [← hpath]
    exact (Page.isPlainPath_directory (Page.isSlug_of_validate (hvalid p hp))).append
      (fileNames_plain hids p name hname)
  · rw [List.mem_singleton.mp hm]
    decide

theorem directories_nodup (h : s.project formatting = .ok files) :
    (s.pages.map Page.directory).Nodup := by
  obtain ⟨-, ⟨hvalid, hslugs⟩, -⟩ := project_eq_ok_iff.mp h
  have hslug : ∀ p ∈ s.pages, isSlug p.slug := fun p hp => Page.isSlug_of_validate (hvalid p hp)
  refine List.pairwise_map.mpr ((List.pairwise_map.mp hslugs).imp_of_mem fun {p q} hp hq hne he => ?_)
  have hpath : p.directory ++ "/" ++ "page.tsx" = q.directory ++ "/" ++ "page.tsx" := by rw [he]
  exact hne (Page.directory_append_inj (hslug p hp) (hslug q hq) noPageFolder_page
    noPageFolder_page hpath).1

/-- The files of a project are those of its pages in order and the manifest. Their paths are made of
plain names, so that writing the project changes nothing outside the folder it is written to. -/
theorem project_contained (h : s.project formatting = .ok files) :
    files.map SourceFile.path = s.pages.flatMap s.pagePaths ++ ["package.json"] ∧
      (s.pages.map Page.directory).Nodup ∧
      (∀ file ∈ files, IsPlainPath file.path) ∧
      ∀ folder d, Directory.DiffersBelow folder d
        ((FileAccess.ofDirectory.writeProject folder files).run.run d).2 := by
  have hplain := isPlainPath_of_mem h
  refine ⟨?_, directories_nodup h, hplain, FileAccess.differsBelow_writeProject hplain⟩
  rw [project_paths h, funext s.pagePaths_eq]

/-- Two scripts lie in the folder of their page, and an upper folder is left as it was. -/
theorem project_contained_for_two_scripts : ∃ files,
    (duet .script "fade" "slide").project .builtIn = .ok files ∧
      files.map SourceFile.path = ["app/home/page.tsx", "app/home/_animations/fade.ts",
        "app/home/_animations/slide.ts", "app/home/_animations/index.tsx", "package.json"] ∧
      (∀ file ∈ files, IsPlainPath file.path) ∧
      ∀ d : Directory, ((FileAccess.ofDirectory.writeProject "kept/out" files).run.run d).2.file?
        ["kept", "notes.txt"] = d.file? ["kept", "notes.txt"] := by
  obtain ⟨files, h⟩ := duet_project .script "fade" "slide" nofun rfl rfl
  obtain ⟨hpaths, -, hplain, hbelow⟩ := project_contained h
  refine ⟨files, h, hpaths.trans (by decide), hplain, fun d => hbelow "kept/out" d _ ?_⟩
  intro root hroot
  obtain rfl : ["kept", "out"] = root := Option.some.inj (Eq.trans (by decide) hroot)
  decide

end Site

end Pagewright
