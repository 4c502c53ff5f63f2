import Mathlib.Data.List.Forall2
import Pagewright.Proofs.Forest.Replacement
import Pagewright.Site.Project

/-! When a project is generated, and which files it then has. -/

namespace Pagewright

section Results

variable {ε ε' α β : Type}

/-- Two steps succeed together when the second succeeds on what the first gives. -/
theorem bind_eq_ok_iff {first : Except ε α} {next : α → Except ε β} {result : β} :
    first >>= next = .ok result ↔ ∃ value, first = .ok value ∧ next value = .ok result := by
  cases first with
  | error fault => exact iff_of_false nofun nofun
  | ok value =>
    refine ⟨fun h => ⟨value, rfl, h⟩, ?_⟩
    rintro ⟨_, hvalue, h⟩
    obtain rfl := Except.ok.inj hvalue
    exact h

theorem mapError_eq_ok_iff {f : ε → ε'} {step : Except ε α} {result : α} :
    step.mapError f = .ok result ↔ step = .ok result := by
  cases step <;> simp [Except.mapError]

/-- Two steps fail when the first does, or the second on what the first gives. -/
theorem bind_eq_error_iff {first : Except ε α} {next : α → Except ε β} {fault : ε} :
    first >>= next = .error fault ↔
      first = .error fault ∨ ∃ value, first = .ok value ∧ next value = .error fault := by
  cases first with
  | error other =>
    refine ⟨fun h => .inl ?_, ?_⟩
    · exact congrArg Except.error (Except.error.inj h)
    · rintro (h | ⟨_, h, -⟩)
      · exact congrArg Except.error (Except.error.inj h)
      · cases h
  | ok value =>
    refine ⟨fun h => .inr ⟨value, rfl, h⟩, ?_⟩
    rintro (h | ⟨_, hvalue, h⟩)
    · cases h
    · obtain rfl := Except.ok.inj hvalue
      exact h

theorem mapError_eq_error_iff {f : ε → ε'} {step : Except ε α} {fault : ε'} :
    step.mapError f = .error fault ↔ ∃ cause, step = .error cause ∧ fault = f cause := by
  cases step <;> simp [Except.mapError, eq_comm]

theorem exists_eq_ok_iff {step : Except ε α} :
    (∃ value, step = .ok value) ↔ ∀ fault, step ≠ .error fault := by
  cases step <;> simp

end Results

/-- The source of a page, followed by the setting of its mode if there is one. -/
def Page.withRouteConfig (p : Page) (source : String) : String :=
  if p.routeConfig = "" then source else source ++ "\n" ++ p.routeConfig ++ "\n"

namespace Site

/-- What goes into a page of a site besides the page itself. -/
def pageOptions (s : Site) (p : Page) : PageOptions := .ofAnimations (s.animationsFor p) s.backend

/-- Some animation of a site belongs to an element of a page. -/
def Animates (s : Site) (p : Page) : Prop := ∃ a ∈ s.animations, a.elementId ∈ Forest.ids p.layout

variable {s : Site} {formatting : Formatting} {p : Page} {files : List SourceFile}

theorem animationsFor_eq (s : Site) (p : Page) :
    s.animationsFor p = s.animations.filter fun a => a.elementId ∈ Forest.ids p.layout := by
  unfold animationsFor
  exact List.filter_congr fun a _ => List.contains_eq_mem _ _

theorem animationsFor_ne_nil_iff : s.animationsFor p ≠ [] ↔ s.Animates p := by
  simp [animationsFor_eq, Animates]

theorem pageFile_eq_ok_iff {file : SourceFile} : s.pageFile formatting p = .ok file ↔
    ∃ source, p.source formatting (s.pageOptions p) = .ok source ∧
      file = ⟨p.directory ++ "/page.tsx", p.withRouteConfig source⟩ := by
  unfold pageFile
  dsimp only
  simp only [bind_eq_ok_iff, mapError_eq_ok_iff]
  refine exists_congr fun source => and_congr_right fun _ => ?_
  exact ⟨fun h => (Except.ok.inj h).symm, fun h => congrArg Except.ok h.symm⟩

theorem pageFiles_eq_ok_iff : s.pageFiles formatting p = .ok files ↔
    ∃ page layout, s.pageFile formatting p = .ok page ∧ s.layoutFiles formatting p = .ok layout ∧
      files = page :: layout ++ animationFiles p.directory (s.animationsFor p) s.backend := by
  unfold pageFiles
  simp only [bind_eq_ok_iff, exists_and_left]
  refine exists_congr fun page => and_congr_right fun _ => ?_
  refine exists_congr fun layout => and_congr_right fun _ => ?_
  exact ⟨fun h => (Except.ok.inj h).symm, fun h => congrArg Except.ok h.symm⟩

/-- Where a page has a layout of its own, that is one more file. -/
theorem layoutFiles_paths {layout : List SourceFile} (h : s.layoutFiles formatting p = .ok layout) :
    layout.map SourceFile.path = if s.hasAuth then [p.directory ++ "/layout.tsx"] else [] := by
  unfold layoutFiles at h
  split at h
  · next auth =>
    cases hs : p.layoutSource formatting with
    | ok source =>
      rw [hs] at h
      rw [if_pos auth, ← Except.ok.inj h]
      rfl
    | error fault =>
      rw [hs] at h
      cases h
  · next auth => rw [if_neg auth, ← Except.ok.inj h, List.map_nil]

private theorem filesOfPages_cons {slugs : List String} {rest : List Page} :
    s.filesOfPages formatting slugs (p :: rest) = .ok files ↔
      (p.validate = .ok () ∧ p.slug ∉ slugs) ∧ ∃ part more, s.pageFiles formatting p = .ok part ∧
        s.filesOfPages formatting (p.slug :: slugs) rest = .ok more ∧ files = part ++ more := by
  rw [filesOfPages]
  cases p.validate with
  | error fault => exact iff_of_false nofun nofun
  | ok _ =>
    by_cases hslug : p.slug ∈ slugs
    · rw [if_pos hslug]
      exact iff_of_false nofun fun h => h.1.2 hslug
    · rw [if_neg hslug]
      change (s.pageFiles formatting p >>= fun part =>
        s.filesOfPages formatting (p.slug :: slugs) rest >>= fun more => .ok (part ++ more)) =
        .ok files ↔ _
      simp only [bind_eq_ok_iff, Except.ok.injEq, hslug, not_false_iff, true_and, exists_and_left,
        @eq_comm _ files]

/-- Pages succeed one after the other exactly when they are valid, bring new slugs, and the files
of each of them succeed. -/
theorem filesOfPages_eq_ok_iff {slugs : List String} {pages : List Page} :
    s.filesOfPages formatting slugs pages = .ok files ↔
      (∀ p ∈ pages, p.validate = .ok () ∧ p.slug ∉ slugs) ∧ (pages.map Page.slug).Nodup ∧
        ∃ parts, List.Forall₂ (fun p part => s.pageFiles formatting p = .ok part) pages parts ∧
          files = parts.flatten := by
  induction pages generalizing slugs files with
  | nil =>
    rw [filesOfPages]
    constructor
    · intro h
      exact ⟨nofun, List.nodup_nil, [], .nil, (Except.ok.inj h).symm⟩
    · rintro ⟨-, -, _, ⟨⟩, rfl⟩
      rfl
  | cons p rest ih =>
    rw [filesOfPages_cons]
    constructor
    · rintro ⟨hp, part, more, hpart, hmore, rfl⟩
      obtain ⟨hrest, hnodup, parts, hparts, rfl⟩ := ih.mp hmore
      refine ⟨?_, ?_, part :: parts, .cons hpart hparts, rfl⟩
      · refine List.forall_mem_cons.mpr ⟨hp, fun q hq => ?_⟩
        exact ⟨(hrest q hq).1, fun h => (hrest q hq).2 (List.mem_cons_of_mem _ h)⟩
      · rw [List.map_cons, List.nodup_cons]
        refine ⟨fun h => ?_, hnodup⟩
        obtain ⟨q, hq, hsame⟩ := List.mem_map.mp h
        exact (hrest q hq).2 (hsame ▸ List.mem_cons_self)
    · rintro ⟨hall, hnodup, _, ⟨⟩ | @⟨_, part, _, parts, hpart, hparts⟩, rfl⟩
      obtain ⟨hp, hrest⟩ := List.forall_mem_cons.mp hall
      rw [List.map_cons, List.nodup_cons] at hnodup
      refine ⟨hp, part, parts.flatten, hpart, ih.mpr ?_, rfl⟩
      refine ⟨fun q hq => ⟨(hrest q hq).1, fun h => ?_⟩, hnodup.2, parts, hparts, rfl⟩
      rcases List.mem_cons.mp h with h | h
      · exact hnodup.1 (h ▸ List.mem_map_of_mem hq)
      · exact (hrest q hq).2 h

/-- A project is generated exactly when the slug and the ids of all animations can name files, the
pages are valid and differ in their slugs, and the files of every page succeed. -/
theorem project_eq_ok_iff : s.project formatting = .ok files ↔
    (isSlug s.slug ∧ ∀ a ∈ s.animations, isAnimationId a.id) ∧
      ((∀ p ∈ s.pages, p.validate = .ok ()) ∧ (s.pages.map Page.slug).Nodup) ∧
        ∃ parts, List.Forall₂ (fun p part => s.pageFiles formatting p = .ok part) s.pages parts ∧
          files = parts.flatten ++ [⟨"package.json", s.manifest⟩] := by
  have hids : (s.animations.find? fun a => !isAnimationId a.id) = none ↔
      ∀ a ∈ s.animations, isAnimationId a.id := by simp
  rw [← hids]
  unfold project
  cases isSlug s.slug with
  | false => exact iff_of_false nofun nofun
  | true =>
    cases s.animations.find? fun a => !isAnimationId a.id with
    | some a => exact iff_of_false nofun nofun
    | none =>
      change (s.filesOfPages formatting [] s.pages >>= fun made =>
        .ok (made ++ [⟨"package.json", s.manifest⟩])) = .ok files ↔ _
      rw [bind_eq_ok_iff]
      constructor
      · rintro ⟨made, hmade, h⟩
        obtain ⟨hvalid, hslugs, parts, hparts, rfl⟩ := filesOfPages_eq_ok_iff.mp hmade
        exact ⟨⟨rfl, rfl⟩, ⟨fun p hp => (hvalid p hp).1, hslugs⟩, parts, hparts,
          (Except.ok.inj h).symm⟩
      · rintro ⟨-, ⟨hvalid, hslugs⟩, parts, hparts, rfl⟩
        refine ⟨parts.flatten, filesOfPages_eq_ok_iff.mpr ?_, rfl⟩
        exact ⟨fun p hp => ⟨hvalid p hp, List.not_mem_nil⟩, hslugs, parts, hparts, rfl⟩

/-- A site with one valid page is generated exactly when the source of that page is. -/
theorem project_single_eq_ok_iff (hpages : s.pages = [p]) (hauth : s.hasAuth = false)
    (hslug : isSlug s.slug) (hids : ∀ a ∈ s.animations, isAnimationId a.id)
    (hvalid : p.validate = .ok ()) : s.project formatting = .ok files ↔
      ∃ source, p.source formatting (s.pageOptions p) = .ok source ∧
        files = ⟨p.directory ++ "/page.tsx", p.withRouteConfig source⟩ ::
          animationFiles p.directory (s.animationsFor p) s.backend ++
            [⟨"package.json", s.manifest⟩] := by
  have hlayout : s.layoutFiles formatting p = .ok [] := by
    rw [layoutFiles, hauth]
    rfl
  rw [project_eq_ok_iff, hpages]
  constructor
  · rintro ⟨-, -, _, hpart | ⟨hpart, ⟨⟩⟩, rfl⟩
    obtain ⟨page, layout, hpage, hl, rfl⟩ := pageFiles_eq_ok_iff.mp hpart
    obtain ⟨source, hsource, rfl⟩ := pageFile_eq_ok_iff.mp hpage
    obtain rfl := Except.ok.inj (hl.symm.trans hlayout)
    exact ⟨source, hsource, by simp⟩
  · rintro ⟨source, hsource, rfl⟩
    have hpart := pageFiles_eq_ok_iff.mpr
      ⟨_, [], pageFile_eq_ok_iff.mpr ⟨source, hsource, rfl⟩, hlayout, rfl⟩
    refine ⟨⟨hslug, hids⟩, ⟨List.forall_mem_singleton.mpr hvalid, List.pairwise_singleton _ _⟩, ?_⟩
    exact ⟨_, .cons hpart .nil, by simp⟩

theorem exists_pageFiles (h : s.project formatting = .ok files) (hp : p ∈ s.pages) :
    ∃ part, s.pageFiles formatting p = .ok part := by
  obtain ⟨-, -, parts, hparts, -⟩ := project_eq_ok_iff.mp h
  clear h
  generalize s.pages = pages at hp hparts
  induction hparts with
  | nil => cases hp
  | @cons q part pages parts hpart _ ih =>
    rcases List.mem_cons.mp hp with rfl | hp
    · exact ⟨part, hpart⟩
    · exact ih hp

/-- Every file of a project is one of those of a page, or the manifest. -/
theorem mem_project_iff (h : s.project formatting = .ok files) {file : SourceFile} :
    file ∈ files ↔ (∃ p ∈ s.pages, ∃ part, s.pageFiles formatting p = .ok part ∧ file ∈ part) ∨
      file = ⟨"package.json", s.manifest⟩ := by
  obtain ⟨-, -, parts, hparts, rfl⟩ := project_eq_ok_iff.mp h
  rw [List.mem_append, List.mem_singleton, List.mem_flatten]
  refine or_congr_left ?_
  clear h
  generalize s.pages = pages at hparts ⊢
  induction hparts with
  | nil => simp
  | @cons p part pages parts hpart _ ih =>
    rw [List.exists_mem_cons_iff, List.exists_mem_cons_iff, ih, hpart]
    refine or_congr_left ⟨fun hm => ⟨part, rfl, hm⟩, ?_⟩
    rintro ⟨_, hsame, hm⟩
    obtain rfl := Except.ok.inj hsame
    exact hm

end Site

end Pagewright
