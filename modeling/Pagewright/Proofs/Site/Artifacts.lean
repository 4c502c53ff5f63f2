import Pagewright.Proofs.Command.Store
import Pagewright.Proofs.Page.Acceptance
import Pagewright.Proofs.Site.Paths

/-! Which projects keep all that they generate apart: files by their paths, and the rules of a
stylesheet by their names. Ids of animations decide both, and nothing checks that they differ. -/

namespace Pagewright

section Names

/-- Hyphens and underscores, which the name of a keyframes rule does not tell apart. -/
def isJoiner (c : Char) : Bool := c = '-' || c = '_'

/-- Two texts that differ at most in which joiner stands where. -/
def SameUpToJoiners (a b : String) : Prop :=
  List.Forall₂ (fun c d => c = d ∨ isJoiner c ∧ isJoiner d) a.toList b.toList

theorem Animation.keyframesName_eq_iff {a b : Animation} :
    a.keyframesName = b.keyframesName ↔ SameUpToJoiners a.id b.id := by
  have hname (a : Animation) : a.keyframesName.toList =
      a.id.toList.map fun c => if c = '-' then '_' else c := by
    have hchar (c : Char) : (if c = '-' then "_" else c.toString).toList =
        [if c = '-' then '_' else c] := by
      split
      · rfl
      · exact String.toList_singleton c
    unfold keyframesName replaceChars
    simp only [hchar, String.toList_ofList]
    exact List.map_eq_flatMap.symm
  have hsame (c d : Char) : ((if c = '-' then '_' else c) = if d = '-' then '_' else d) ↔
      c = d ∨ isJoiner c ∧ isJoiner d := by
    simp only [isJoiner, Bool.or_eq_true, decide_eq_true_eq]
    grind
  rw [← String.toList_inj, hname, hname, SameUpToJoiners, ← List.forall₂_eq_eq_eq,
    List.forall₂_map_left_iff, List.forall₂_map_right_iff]
  simp only [hsame]

end Names

theorem animationFileNames_nodup_iff {animations : List Animation} {backend : Backend} :
    (animationFileNames animations backend).Nodup ↔
      (backend = .script → (animations.map Animation.id).Nodup) := by
  unfold animationFileNames
  by_cases hnone : animations = []
  · cases backend <;> simp [hnone]
  cases backend with
  | css => simp [hnone]
  | motion => simp
  | script =>
    have hinj : Function.Injective fun id : String => scriptFolder ++ ("/" ++ (id ++ ".ts")) := by
      intro a b h
      have h := congrArg String.toList h
      simp only [String.toList_append, List.append_right_inj, List.append_left_inj] at h
      exact String.toList_injective h
    have hids : animations.map (fun a => scriptFolder ++ ("/" ++ (a.id ++ ".ts"))) =
        (animations.map Animation.id).map fun id => scriptFolder ++ ("/" ++ (id ++ ".ts")) := by
      rw [List.map_map]
      rfl
    simp only [if_neg hnone, forall_const]
    rw [List.nodup_append', hids, List.nodup_map_iff hinj]
    refine and_iff_left ⟨List.nodup_singleton _, ?_⟩
    intro name hm hlast
    obtain ⟨id, -, rfl⟩ := List.mem_map.mp hm
    exact script_ne_runner id (List.mem_singleton.mp hlast)

namespace Site

variable {s : Site} {formatting : Formatting} {files : List SourceFile}

theorem fileNames_nodup_iff {p : Page} : (s.fileNames p).Nodup ↔
    (s.backend = .script → ((s.animationsFor p).map Animation.id).Nodup) := by
  have hown : ("page.tsx" :: if s.hasAuth then ["layout.tsx"] else []).Nodup := by
    split <;> decide
  -- The files of animations begin otherwise than those of the page itself.
  have hbegin : ∀ name ∈ animationFileNames (s.animationsFor p) s.backend,
      name.toList.head? = some 'a' ∨ name.toList.head? = some '_' := by
    intro name hm
    obtain ⟨-, ⟨-, rfl⟩ | ⟨-, ⟨a, -, rfl⟩ | rfl⟩⟩ := mem_animationFileNames_iff.mp hm
    · exact .inl rfl
    · exact .inr (by simp [scriptFolder, String.toList_append])
    · exact .inr rfl
  unfold fileNames
  rw [List.nodup_append', animationFileNames_nodup_iff]
  refine ⟨fun h => h.2.1, fun h => ⟨hown, h, ?_⟩⟩
  intro name hm hname
  have hhead := hbegin name hname
  rcases List.mem_cons.mp hm with rfl | hm
  · revert hhead
    decide
  · split at hm
    · rw [List.mem_singleton.mp hm] at hhead
      revert hhead
      decide
    · cases hm

/-- Two files of a project have one path only where two files of one page have one name. -/
theorem paths_nodup_iff (h : s.project formatting = .ok files) :
    (files.map SourceFile.path).Nodup ↔ ∀ p ∈ s.pages, (s.fileNames p).Nodup := by
  obtain ⟨-, ⟨hvalid, hslugs⟩, -⟩ := project_eq_ok_iff.mp h
  have hslug : ∀ p ∈ s.pages, isSlug p.slug := fun p hp =>
    Page.isSlug_of_validate (hvalid p hp)
  rw [project_paths h, List.nodup_append', List.nodup_flatMap]
  constructor
  · intro hall p hp
    exact (List.nodup_map_iff p.directory_append_injective).mp (hall.1.1 p hp)
  · intro hall
    refine ⟨⟨fun p hp => (hall p hp).map p.directory_append_injective, ?_⟩,
      List.nodup_singleton _, ?_⟩
    · refine (List.pairwise_map.mp hslugs).imp_of_mem fun {p q} hp hq hne path hm hm' => ?_
      obtain ⟨name, hname, rfl⟩ := List.mem_map.mp hm
      obtain ⟨other, hother, hsame⟩ := List.mem_map.mp hm'
      exact hne (Page.directory_append_inj (hslug q hq) (hslug p hp)
        (fileNames_noPageFolder q other hother) (fileNames_noPageFolder p name hname) hsame).1.symm
    · intro path hm hlast
      obtain ⟨p, -, hm⟩ := List.mem_flatMap.mp hm
      obtain ⟨name, -, hname⟩ := List.mem_map.mp hm
      exact Page.directory_append_ne_manifest p name (hname.trans (List.mem_singleton.mp hlast))

/-- The text is a stylesheet with the rules of some animations, and two of these with different ids
do not have one name for their keyframes. -/
structure RulesApart (content : String) (animations : List Animation) : Prop where
  rules : content = joinLines (animations.map Animation.stylesheet)
  names : ∀ a ∈ animations, ∀ b ∈ animations, a.id ≠ b.id → a.keyframesName ≠ b.keyframesName

/-- Nothing that is generated for a site takes the place of something else. -/
structure KeepsApart (s : Site) (files : List SourceFile) : Prop where
  paths : (files.map SourceFile.path).Nodup
  found : ∀ file ∈ files, fileAt? files file.path = some file
  /-- Written into a folder, each file is there in the end. -/
  written : ∀ folder store, ∃ store',
    (FileAccess.ofStore.writeProject folder files).run.run store = (.ok (), store') ∧
      ∀ file ∈ files, store'.get? (FileAccess.pathIn folder file.path) = some file.content
  rules : ∀ p ∈ s.pages, ∀ file ∈ files, file.path = p.directory ++ "/" ++ stylesheetName →
    RulesApart file.content (s.animationsFor p)

/-- The ids of the animations of one page differ where they name files, and differ in more than
their joiners where they name keyframes. -/
def IdsApart (s : Site) : Prop :=
  ∀ p ∈ s.pages, match s.backend with
    | .script => ((s.animationsFor p).map Animation.id).Nodup
    | .css => ∀ a ∈ s.animationsFor p, ∀ b ∈ s.animationsFor p,
        a.id ≠ b.id → ¬ SameUpToJoiners a.id b.id
    | .motion => True

theorem fileAt?_of_nodup (h : (files.map SourceFile.path).Nodup) {file : SourceFile}
    (hfile : file ∈ files) : fileAt? files file.path = some file := by
  obtain ⟨other, hother⟩ := exists_fileAt? (List.mem_map_of_mem hfile)
  obtain ⟨hm, hpath⟩ := fileAt?_eq_some hother
  rw [hother, List.inj_on_of_nodup_map h hm hfile hpath]

private theorem stylesheet_content (h : s.project formatting = .ok files) {p : Page}
    (hp : p ∈ s.pages) {file : SourceFile} (hfile : file ∈ files)
    (hpath : file.path = p.directory ++ "/" ++ stylesheetName) :
    s.backend = .css ∧ file.content = joinLines ((s.animationsFor p).map Animation.stylesheet) := by
  obtain ⟨part, hpart⟩ := exists_pageFiles h hp
  have hm := mem_pageFiles_of_path h hp hpart noPageFolder_stylesheetName hfile hpath
  have hm := mem_animationFiles_of_path hpart hm hpath (by decide) (by decide)
  obtain ⟨-, ⟨hcss, rfl⟩ | ⟨-, ⟨a, -, rfl⟩ | rfl⟩⟩ := mem_animationFiles_iff.mp hm
  · exact ⟨hcss, rfl⟩
  · rw [scriptFile_path] at hpath
    exact absurd (p.directory_append_injective hpath).symm (stylesheetName_ne_script _)
  · rw [runner_path] at hpath
    exact absurd (p.directory_append_injective hpath).symm (stylesheetName_ne_script _)

/-- A site of one page, which holds one text with two animations. -/
def duet (backend : Backend) (first second : String) : Site where
  name := "Duet"
  slug := "duet"
  hasAuth := false
  backend := backend
  pages := [{ Page.bare "p1" "Home" "home" with layout := [Element.bare "hero" .text] }]
  animations := [Animation.bare first "hero" .entry, Animation.bare second "hero" .hover]

private theorem duet_draft_balanced {backend : Backend} (hfiles : backend ≠ .motion)
    (first second : String) (p : Page) (hp : p ∈ (duet backend first second).pages) :
    checkBraces (p.draft ((duet backend first second).pageOptions p)).toList = .ok () := by
  obtain rfl := List.mem_singleton.mp hp
  -- The ids of the animations do not occur in the page.
  have hids (p : Page) (hp : p ∈ (duet backend first second).pages) :
      p.draft ((duet backend first second).pageOptions p) =
        p.draft ((duet backend "" "").pageOptions p) := by
    obtain rfl := List.mem_singleton.mp hp
    cases backend <;> rfl
  rw [hids _ hp]
  unfold Page.draft Page.component Template.fill TemplateData.ofPage Page.bare
  dsimp only
  unfold Template.staticPage TemplateData.mainBlock
  refine checkBraces_eq_ok_iff.mpr ⟨.code, ?_⟩
  simp only [String.toList_append]
  cases backend with
  | css => decide +kernel
  | script => decide +kernel
  | motion => exact absurd rfl hfiles

theorem duet_project (backend : Backend) (first second : String)
    (hfiles : backend ≠ .motion) (hfirst : isAnimationId first)
    (hsecond : isAnimationId second) :
    ∃ files, (duet backend first second).project .builtIn = .ok files := by
  obtain ⟨p, hp⟩ : ∃ p, (duet backend first second).pages = [p] := ⟨_, rfl⟩
  have hslug : isSlug "duet" := by decide
  have hvalid : p.validate = .ok () := by
    obtain rfl := (List.cons.inj hp).1
    rfl
  obtain ⟨source, hsource⟩ := Page.source_builtIn_iff.mpr
    (duet_draft_balanced hfiles first second p (hp ▸ List.mem_cons_self) : checkBraces _ = .ok ())
  exact ⟨_, (project_single_eq_ok_iff hp rfl hslug
    (List.forall_mem_cons.mpr ⟨hfirst, List.forall_mem_singleton.mpr hsecond⟩) hvalid).mpr
    ⟨source, hsource, rfl⟩⟩

/-- A project keeps all that it generates apart exactly when the ids of animations do: nothing else
can make two files or two rules clash. -/
theorem project_keepsApart_iff (h : s.project formatting = .ok files) :
    s.KeepsApart files ↔ s.IdsApart := by
  constructor
  · intro hkeeps p hp
    cases hbackend : s.backend with
    | script => exact fileNames_nodup_iff.mp ((paths_nodup_iff h).mp hkeeps.paths p hp) hbackend
    | css =>
      intro a ha b hb hne
      obtain ⟨part, hpart⟩ := exists_pageFiles h hp
      have hfile := (mem_pageFiles_iff hpart).mpr (.inr (.inr (mem_animationFiles_iff.mpr
        ⟨List.ne_nil_of_mem ha, .inl ⟨hbackend, rfl⟩⟩)))
      have hrules := hkeeps.rules p hp _ ((mem_project_iff h).mpr (.inl ⟨p, hp, part, hpart, hfile⟩))
        rfl
      exact fun hsame => hrules.names a ha b hb hne (Animation.keyframesName_eq_iff.mpr hsame)
    | motion => trivial
  · intro hids
    have hpaths : (files.map SourceFile.path).Nodup := by
      refine (paths_nodup_iff h).mpr fun p hp => fileNames_nodup_iff.mpr fun hscript => ?_
      have hp := hids p hp
      rwa [hscript] at hp
    refine ⟨hpaths, fun file hfile => fileAt?_of_nodup hpaths hfile, fun folder store => ?_, ?_⟩
    · exact ⟨_, FileAccess.writeProject_ofStore folder store files,
        fun file hfile => FileAccess.stored_get? hpaths hfile⟩
    · intro p hp file hfile hpath
      obtain ⟨hcss, hcontent⟩ := stylesheet_content h hp hfile hpath
      refine ⟨hcontent, fun a ha b hb hne hsame => ?_⟩
      have hp := hids p hp
      rw [hcss] at hp
      exact hp a ha b hb hne (Animation.keyframesName_eq_iff.mp hsame)

/-- Two scripts are kept apart. -/
theorem project_keepsApart_of_two_scripts : ∃ files,
    (duet .script "fade" "slide").project .builtIn = .ok files ∧
      (duet .script "fade" "slide").KeepsApart files := by
  obtain ⟨files, h⟩ := duet_project .script "fade" "slide" nofun rfl rfl
  refine ⟨files, h, (project_keepsApart_iff h).mpr fun p hp => ?_⟩
  obtain rfl := List.mem_singleton.mp hp
  exact (by decide : ["fade", "slide"].Nodup)

/-- Two animations with one id share a script, and ids that differ in a joiner share the name of
their keyframes. -/
theorem artifacts_collide_for_like_ids :
    (∃ files, (duet .script "fade" "fade").project .builtIn = .ok files ∧
      ¬ (files.map SourceFile.path).Nodup) ∧
    ∃ files, (duet .css "fade-in" "fade_in").project .builtIn = .ok files ∧
      ∃ file ∈ files, file.path = "app/home/animations.css" ∧
        ∃ a b : Animation, file.content = joinLines [a.stylesheet, b.stylesheet] ∧
          a.id ≠ b.id ∧ a.keyframesName = b.keyframesName := by
  constructor
  · obtain ⟨files, h⟩ := duet_project .script "fade" "fade" nofun rfl rfl
    refine ⟨files, h, fun hnodup => ?_⟩
    have hnames := (paths_nodup_iff h).mp hnodup _ List.mem_cons_self
    exact absurd (fileNames_nodup_iff.mp hnames rfl) (by decide : ¬ ["fade", "fade"].Nodup)
  · obtain ⟨files, h⟩ := duet_project .css "fade-in" "fade_in" nofun rfl rfl
    obtain ⟨part, hpart⟩ := exists_pageFiles h List.mem_cons_self
    refine ⟨files, h, _, (mem_project_iff h).mpr (.inl ⟨_, List.mem_cons_self, part, hpart,
      (mem_pageFiles_iff hpart).mpr (.inr (.inr List.mem_cons_self))⟩), rfl, ?_⟩
    exact ⟨_, _, rfl, by decide, by decide⟩

end Site

end Pagewright
