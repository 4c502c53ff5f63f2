import Mathlib.Data.List.Perm.Basic
import Pagewright.Proofs.Site.Containment

/-! Pages of a project do not see each other: what lies in the directory of a page is the same in
every project in which its own animations are, and the order of the pages only orders the files. -/

namespace Pagewright

namespace Page

variable {p q : Page}

/-- Whether a file lies in the directory of a page, or in the folder with the scripts of that page.
Other folders in the directory belong to other pages. -/
def holds (p : Page) (file : SourceFile) : Bool :=
  let folder := (pathNames file.path.toList).dropLast
  let directory := pathNames p.directory.toList
  folder = directory || folder = directory ++ [scriptFolder.toList]

private theorem names_directory (h : isSlug p.slug) : pathNames p.directory.toList =
    if p.slug = "index" then ["app".toList] else ["app".toList, p.slug.toList] := by
  unfold directory
  split
  · decide
  · have htext : ("app/" ++ p.slug).toList = "app".toList ++ '/' :: p.slug.toList := by simp
    rw [htext, pathNames_append, pathNames_of_notMem (slash_notMem_of_isSlug h),
      pathNames_of_notMem (by decide), List.singleton_append]

private theorem slug_ne_scriptFolder (h : isSlug p.slug) : p.slug.toList ≠ scriptFolder.toList := by
  intro e
  have hall := (Bool.and_eq_true_iff.mp h).2
  rw [e] at hall
  exact absurd hall (by decide)

/-- The directory of a page is told from those of other pages and from their script folders. -/
private theorem eq_of_names_directory (hp : isSlug p.slug) (hq : isSlug q.slug)
    {inside : List (List Char)} (hinside : inside = [] ∨ inside = [scriptFolder.toList])
    (h : pathNames q.directory.toList ++ inside = pathNames p.directory.toList ∨
      pathNames q.directory.toList ++ inside =
        pathNames p.directory.toList ++ [scriptFolder.toList]) : q.slug = p.slug := by
  have hslug := slug_ne_scriptFolder hp
  have hslug' := slug_ne_scriptFolder hq
  rw [names_directory hp, names_directory hq] at h
  rcases hinside with rfl | rfl <;> split at h <;> split at h <;> simp_all [String.toList_inj]

end Page

namespace Site

variable {s t : Site} {formatting : Formatting} {p q : Page} {part files : List SourceFile}

/-- Two sites agree on what the files of a page are made from besides the page. -/
structure AgreeOn (p : Page) (s t : Site) : Prop where
  backend : s.backend = t.backend
  auth : s.hasAuth = t.hasAuth
  animations : (s.animations.filter fun a => a.elementId ∈ Forest.ids p.layout) =
    t.animations.filter fun a => a.elementId ∈ Forest.ids p.layout

theorem AgreeOn.pageFiles_eq (h : AgreeOn p s t) (formatting : Formatting) :
    s.pageFiles formatting p = t.pageFiles formatting p := by
  have hanimations : s.animationsFor p = t.animationsFor p := by
    rw [animationsFor_eq, animationsFor_eq, h.animations]
  unfold pageFiles pageFile layoutFiles
  rw [hanimations, h.backend, h.auth]

private theorem folder_of_mem_fileNames (hids : ∀ a ∈ s.animations, isAnimationId a.id)
    {name : String} (h : name ∈ s.fileNames p) :
    (pathNames name.toList).dropLast = [] ∨
      (pathNames name.toList).dropLast = [scriptFolder.toList] := by
  have hscript {rest : String} (hrest : '/' ∉ rest.toList) :
      (pathNames (scriptFolder ++ ("/" ++ rest)).toList).dropLast = [scriptFolder.toList] := by
    have htext : (scriptFolder ++ ("/" ++ rest)).toList =
        scriptFolder.toList ++ '/' :: rest.toList := by simp
    rw [htext, pathNames_append, pathNames_of_notMem hrest, pathNames_of_notMem (by decide)]
    rfl
  rcases List.mem_append.mp h with h | h
  · rcases List.mem_cons.mp h with rfl | h
    · exact .inl (by decide)
    · split at h
      · rw [List.mem_singleton.mp h]
        exact .inl (by decide)
      · cases h
  · obtain ⟨-, ⟨-, rfl⟩ | ⟨-, ⟨a, ha, rfl⟩ | rfl⟩⟩ := mem_animationFileNames_iff.mp h
    · exact .inl (by decide)
    · have hname := isPlainName_script (hids a (List.mem_of_mem_filter ha))
      exact .inr (hscript fun hslash => absurd (hname.chars '/' hslash) (by decide))
    · exact .inr (by decide)

/-- The files of a page lie in its directory or in its script folder. -/
private theorem folder_of_mem_pageFiles (hids : ∀ a ∈ s.animations, isAnimationId a.id)
    (hpart : s.pageFiles formatting p = .ok part) {file : SourceFile} (hfile : file ∈ part) :
    ∃ inside, (inside = [] ∨ inside = [scriptFolder.toList]) ∧
      (pathNames file.path.toList).dropLast = pathNames p.directory.toList ++ inside := by
  have hpath := List.mem_map_of_mem (f := SourceFile.path) hfile
  rw [pageFiles_paths hpart] at hpath
  obtain ⟨name, hname, hpath⟩ := List.mem_map.mp hpath
  refine ⟨_, folder_of_mem_fileNames hids hname, ?_⟩
  have htext : file.path.toList = p.directory.toList ++ '/' :: name.toList := by simp [← hpath]
  rw [htext, pathNames_append, List.dropLast_append_of_ne_nil (pathNames_ne_nil _)]

private theorem holds_own (hids : ∀ a ∈ s.animations, isAnimationId a.id)
    (hpart : s.pageFiles formatting p = .ok part) : part.filter p.holds = part := by
  refine List.filter_eq_self.mpr fun file hfile => ?_
  obtain ⟨inside, rfl | rfl, hfolder⟩ := folder_of_mem_pageFiles hids hpart hfile
  · simp [Page.holds, hfolder]
  · simp [Page.holds, hfolder]

private theorem holds_other (hids : ∀ a ∈ s.animations, isAnimationId a.id)
    (hp : isSlug p.slug) (hq : isSlug q.slug) (hne : q.slug ≠ p.slug)
    (hpart : s.pageFiles formatting q = .ok part) : part.filter p.holds = [] := by
  refine List.filter_eq_nil_iff.mpr fun file hfile hholds => hne ?_
  obtain ⟨inside, hinside, hfolder⟩ := folder_of_mem_pageFiles hids hpart hfile
  rw [Page.holds, hfolder] at hholds
  exact Page.eq_of_names_directory hp hq hinside (by simpa using hholds)

private theorem filter_parts_of_notMem {pages : List Page} {parts : List (List SourceFile)}
    (hids : ∀ a ∈ s.animations, isAnimationId a.id) (hp : isSlug p.slug)
    (hslug : ∀ q ∈ pages, isSlug q.slug) (hnew : p.slug ∉ pages.map Page.slug)
    (hparts : List.Forall₂ (fun q part => s.pageFiles formatting q = .ok part) pages parts) :
    parts.flatten.filter p.holds = [] := by
  induction hparts with
  | nil => rfl
  | @cons q part pages parts hpart _ ih =>
    obtain ⟨hq, hslug⟩ := List.forall_mem_cons.mp hslug
    obtain ⟨hne, hnew⟩ := not_or.mp (mt List.mem_cons.mpr hnew)
    rw [List.flatten_cons, List.filter_append, holds_other hids hp hq (Ne.symm hne) hpart,
      List.nil_append]
    exact ih hslug hnew

private theorem filter_parts_of_mem {pages : List Page} {parts : List (List SourceFile)}
    (hids : ∀ a ∈ s.animations, isAnimationId a.id) (hp : p ∈ pages)
    (hslug : ∀ q ∈ pages, isSlug q.slug) (hslugs : (pages.map Page.slug).Nodup)
    (hparts : List.Forall₂ (fun q part => s.pageFiles formatting q = .ok part) pages parts) :
    s.pageFiles formatting p = .ok (parts.flatten.filter p.holds) := by
  induction hparts with
  | nil => cases hp
  | @cons q part pages parts hpart hrest ih =>
    obtain ⟨hq, hrestSlug⟩ := List.forall_mem_cons.mp hslug
    rw [List.map_cons, List.nodup_cons] at hslugs
    rw [List.flatten_cons, List.filter_append]
    rcases List.mem_cons.mp hp with rfl | hp
    · rw [holds_own hids hpart, filter_parts_of_notMem hids hq hrestSlug hslugs.1 hrest,
        List.append_nil, hpart]
    · have hne : q.slug ≠ p.slug := fun e => hslugs.1 (e ▸ List.mem_map_of_mem hp)
      rw [holds_other hids (hrestSlug p hp) hq hne hpart, List.nil_append]
      exact ih hp hrestSlug hslugs.2

/-- What a project holds in the directory of a page are the files of that page. -/
theorem pageFiles_eq_filter (h : s.project formatting = .ok files) (hp : p ∈ s.pages) :
    s.pageFiles formatting p = .ok (files.filter p.holds) := by
  obtain ⟨⟨-, hids⟩, ⟨hvalid, hslugs⟩, parts, hparts, rfl⟩ := project_eq_ok_iff.mp h
  have hslug : ∀ q ∈ s.pages, isSlug q.slug := fun q hq => Page.isSlug_of_validate (hvalid q hq)
  -- The manifest lies in no folder at all.
  have hmanifest : p.holds ⟨"package.json", s.manifest⟩ = false := by
    have hfolder : (pathNames "package.json".toList).dropLast = [] := by decide
    rw [Page.holds, hfolder]
    simp [(pathNames_ne_nil _).symm]
  rw [List.filter_append, List.filter_singleton, hmanifest, cond_false, List.append_nil]
  exact filter_parts_of_mem hids hp hslug hslugs hparts

/-- In another order the pages give the same files in another order. -/
theorem project_perm (h : s.project formatting = .ok files) {pages : List Page}
    (hpages : pages.Perm s.pages) :
    ∃ files', { s with pages }.project formatting = .ok files' ∧ files'.Perm files := by
  obtain ⟨hnames, ⟨hvalid, hslugs⟩, parts, hparts, rfl⟩ := project_eq_ok_iff.mp h
  obtain ⟨parts', hparts', hperm⟩ := List.perm_comp_forall₂ hpages hparts
  refine ⟨_, project_eq_ok_iff.mpr ⟨hnames, ⟨fun p hp => hvalid p (hpages.subset hp), ?_⟩,
    parts', hparts', rfl⟩, hperm.flatten.append_right _⟩
  exact (hpages.map Page.slug).nodup_iff.mpr hslugs

/-- The files in the directory of a page are the same in every project that has the page with the
same animations, whatever else is in it, and the order of the pages only orders the files. -/
theorem pages_independent (formatting : Formatting) :
    (∀ (p : Page) (s t : Site) (files files' : List SourceFile),
      s.project formatting = .ok files → t.project formatting = .ok files' →
      p ∈ s.pages → p ∈ t.pages → AgreeOn p s t →
        files.filter p.holds = files'.filter p.holds ∧
          (files.filter p.holds).map SourceFile.path = s.pagePaths p) ∧
    ∀ (s : Site) (files : List SourceFile) (pages : List Page),
      s.project formatting = .ok files → pages.Perm s.pages →
        ∃ files', { s with pages }.project formatting = .ok files' ∧ files'.Perm files := by
  constructor
  · intro p s t files files' hs ht hps hpt hagree
    have hmade := pageFiles_eq_filter hs hps
    have hmade' := pageFiles_eq_filter ht hpt
    rw [← hagree.pageFiles_eq, hmade] at hmade'
    exact ⟨Except.ok.inj hmade', (pageFiles_paths hmade).trans (s.pagePaths_eq p).symm⟩
  · intro s files pages h hpages
    exact project_perm h hpages

/-- The page of a duet as the second page of another site, whose first page is animated too. -/
def duetBehindNote : Site :=
  { duet .script "fade" "slide" with
    name := "Trio"
    slug := "trio"
    pages := { Page.bare "p2" "About" "about" with layout := [Element.bare "note" .text] } ::
      (duet .script "fade" "slide").pages
    animations := Animation.bare "spin" "note" .entry :: (duet .script "fade" "slide").animations }

/-- A duet has the same scripts alone and behind another page, on either side of it. -/
theorem pages_independent_of_note : ∃ (formatting : Formatting)
    (files files' files'' : List SourceFile) (p : Page),
    (duet .script "fade" "slide").project formatting = .ok files ∧
      duetBehindNote.project formatting = .ok files' ∧
      { duetBehindNote with pages := duetBehindNote.pages.reverse }.project formatting =
        .ok files'' ∧
      files.filter p.holds = files'.filter p.holds ∧
      (files.filter p.holds).map SourceFile.path = ["app/home/page.tsx",
        "app/home/_animations/fade.ts", "app/home/_animations/slide.ts",
        "app/home/_animations/index.tsx"] ∧
      files'.length = 8 ∧ files''.Perm files' := by
  let verbatim : Formatting := ⟨⟨0, fun _ source => .ok source⟩, none⟩
  obtain ⟨p, hp⟩ : ∃ p, (duet .script "fade" "slide").pages = [p] := ⟨_, rfl⟩
  obtain ⟨hsame, hperm⟩ := pages_independent verbatim
  obtain ⟨files, h⟩ : ∃ files, (duet .script "fade" "slide").project verbatim = .ok files :=
    ⟨_, rfl⟩
  obtain ⟨files', h'⟩ : ∃ files, duetBehindNote.project verbatim = .ok files := ⟨_, rfl⟩
  obtain ⟨files'', h'', hreverse⟩ := hperm _ _ _ h' (List.reverse_perm _)
  have hmem : p ∈ (duet .script "fade" "slide").pages := hp ▸ List.mem_cons_self
  have hagree : AgreeOn p (duet .script "fade" "slide") duetBehindNote := by
    obtain rfl := (List.cons.inj hp).1
    exact ⟨rfl, rfl, rfl⟩
  obtain ⟨heq, hpaths⟩ := hsame p _ _ _ _ h h' hmem (List.mem_cons_of_mem _ hmem) hagree
  refine ⟨verbatim, files, files', files'', p, h, h', h'', heq, ?_, ?_, hreverse⟩
  · obtain rfl := (List.cons.inj hp).1
    exact hpaths.trans (by decide)
  · have hlength := congrArg List.length (project_paths h')
    rw [List.length_map] at hlength
    exact hlength.trans (by decide)

end Site

end Pagewright
