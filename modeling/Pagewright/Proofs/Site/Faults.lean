import Pagewright.Proofs.Page.Validation
import Pagewright.Proofs.Site.Project

/-! Which fault a project is rejected for: its slug, its first bad animation id, or that of its
first page with one. A project without any of them is generated. -/

namespace Pagewright

/-- Letters, digits, the hyphen and the underscore. -/
def animationIdRanges : List (Char × Char) :=
  [('A', 'Z'), ('a', 'z'), ('0', '9'), ('-', '-'), ('_', '_')]

theorem isUpper_iff_le {c : Char} : c.isUpper ↔ 'A' ≤ c ∧ c ≤ 'Z' := decide_eq_true_iff

theorem isAlphanum_iff {c : Char} : c.isAlphanum ↔ (c.isUpper ∨ c.isLower) ∨ c.isDigit :=
  Bool.or_eq_true_iff.trans (or_congr_left Bool.or_eq_true_iff)

theorem isAnimationId_iff {id : String} : isAnimationId id ↔ MadeOf animationIdRanges id := by
  have hchar (c : Char) :
      isAnimationIdChar c ↔ ∃ range ∈ animationIdRanges, range.1 ≤ c ∧ c ≤ range.2 := by
    simp [isAnimationIdChar, animationIdRanges, isAlphanum_iff, isUpper_iff_le, isLower_iff_le,
      isDigit_iff_le, char_eq_iff_le, or_assoc]
  simp [isAnimationId, MadeOf, ← hchar]

namespace Site

variable {s : Site} {formatting : Formatting} {taken : List String} {p : Page} {fault : SiteError}

/-- The fault of a page when some slugs are taken: its own; or else that its slug is taken; or else
that its source, or with a login its layout, cannot be formatted. -/
inductive PageFault (s : Site) (formatting : Formatting) (taken : List String) (p : Page) :
    SiteError → Prop where
  | invalid {fault : PageError} : p.validate = .error fault →
      PageFault s formatting taken p (.page fault)
  | slugTaken : p.validate = .ok () → p.slug ∈ taken →
      PageFault s formatting taken p (.duplicateSlug p.slug)
  | source {fault : FormatError} : p.validate = .ok () → p.slug ∉ taken →
      p.source formatting (s.pageOptions p) = .error fault →
      PageFault s formatting taken p (.format fault)
  | layout {source : String} {fault : FormatError} : p.validate = .ok () → p.slug ∉ taken →
      p.source formatting (s.pageOptions p) = .ok source → s.hasAuth →
      p.layoutSource formatting = .error fault → PageFault s formatting taken p (.format fault)

/-- What one more page adds to a project when some slugs are taken. -/
def pagePart (s : Site) (formatting : Formatting) (taken : List String) (p : Page) :
    Except SiteError (List SourceFile) :=
  p.validate.mapError SiteError.page >>= fun _ =>
    if p.slug ∈ taken then .error (.duplicateSlug p.slug) else s.pageFiles formatting p

theorem filesOfPages_cons_eq (rest : List Page) : s.filesOfPages formatting taken (p :: rest) =
    s.pagePart formatting taken p >>= fun files =>
      s.filesOfPages formatting (p.slug :: taken) rest >>= fun more => .ok (files ++ more) := by
  rw [filesOfPages, pagePart]
  cases p.validate with
  | error fault => rfl
  | ok _ =>
    by_cases htaken : p.slug ∈ taken
    · simp only [if_pos htaken]
      rfl
    · simp only [if_neg htaken]
      rfl

theorem pageFile_eq_error_iff : s.pageFile formatting p = .error fault ↔
    ∃ cause, p.source formatting (s.pageOptions p) = .error cause ∧ fault = .format cause := by
  unfold pageFile
  dsimp only
  rw [bind_eq_error_iff, mapError_eq_error_iff]
  refine or_iff_left ?_
  rintro ⟨source, -, ⟨⟩⟩

theorem layoutFiles_eq_error_iff : s.layoutFiles formatting p = .error fault ↔
    s.hasAuth ∧ ∃ cause, p.layoutSource formatting = .error cause ∧ fault = .format cause := by
  unfold layoutFiles
  cases s.hasAuth with
  | false => simp
  | true => cases p.layoutSource formatting <;> simp [Except.mapError, Except.map, eq_comm]

theorem pageFiles_eq_error_iff : s.pageFiles formatting p = .error fault ↔
    s.pageFile formatting p = .error fault ∨
      (∃ source, p.source formatting (s.pageOptions p) = .ok source) ∧
        s.layoutFiles formatting p = .error fault := by
  unfold pageFiles
  simp only [bind_eq_error_iff, pageFile_eq_ok_iff]
  refine or_congr_right ⟨?_, ?_⟩
  · rintro ⟨_, ⟨source, hsource, rfl⟩, hlayout | ⟨layout, -, ⟨⟩⟩⟩
    exact ⟨⟨source, hsource⟩, hlayout⟩
  · rintro ⟨⟨source, hsource⟩, hlayout⟩
    exact ⟨_, ⟨source, hsource, rfl⟩, .inl hlayout⟩

theorem pagePart_eq_error_iff :
    s.pagePart formatting taken p = .error fault ↔ s.PageFault formatting taken p fault := by
  constructor
  · intro h
    rw [pagePart, bind_eq_error_iff, mapError_eq_error_iff] at h
    obtain ⟨cause, hinvalid, rfl⟩ | ⟨⟨⟩, hvalid, h⟩ := h
    · exact .invalid hinvalid
    rw [mapError_eq_ok_iff] at hvalid
    split at h
    · next htaken =>
      obtain rfl := Except.error.inj h
      exact .slugTaken hvalid htaken
    · next hfresh =>
      rw [pageFiles_eq_error_iff, pageFile_eq_error_iff, layoutFiles_eq_error_iff] at h
      obtain ⟨cause, hsource, rfl⟩ | ⟨⟨source, hsource⟩, hauth, cause, hlayout, rfl⟩ := h
      · exact .source hvalid hfresh hsource
      · exact .layout hvalid hfresh hsource hauth hlayout
  · rintro (hinvalid | ⟨hvalid, htaken⟩ | ⟨hvalid, hfresh, hsource⟩ |
      ⟨hvalid, hfresh, hsource, hauth, hlayout⟩)
    · rw [pagePart, hinvalid]
      rfl
    · rw [pagePart, hvalid]
      exact if_pos htaken
    · rw [pagePart, hvalid]
      have hfile := pageFile_eq_error_iff.mpr ⟨_, hsource, rfl⟩
      exact (if_neg hfresh).trans (pageFiles_eq_error_iff.mpr (.inl hfile))
    · rw [pagePart, hvalid]
      have hfile := layoutFiles_eq_error_iff.mpr ⟨hauth, _, hlayout, rfl⟩
      exact (if_neg hfresh).trans (pageFiles_eq_error_iff.mpr (.inr ⟨⟨_, hsource⟩, hfile⟩))

theorem PageFault.congr {others : List String} (h : ∀ slug, slug ∈ taken ↔ slug ∈ others) :
    s.PageFault formatting taken p fault ↔ s.PageFault formatting others p fault := by
  rw [← pagePart_eq_error_iff, ← pagePart_eq_error_iff, pagePart, pagePart]
  simp only [h]

/-- The fault of the first of some pages that has one. The slugs of the pages before a page are
taken for it, besides those that are taken for all. -/
inductive FirstPageFault (s : Site) (formatting : Formatting) (taken : List String)
    (pages : List Page) (fault : SiteError) : Prop where
  | intro {before after : List Page} {p : Page} : pages = before ++ p :: after →
      (∀ earlier q later, before = earlier ++ q :: later →
        ∀ other, ¬ s.PageFault formatting (taken ++ earlier.map Page.slug) q other) →
      s.PageFault formatting (taken ++ before.map Page.slug) p fault →
      FirstPageFault s formatting taken pages fault

private theorem filesOfPages_cons_eq_error_iff {rest : List Page} :
    s.filesOfPages formatting taken (p :: rest) = .error fault ↔
      s.PageFault formatting taken p fault ∨ (∀ other, ¬ s.PageFault formatting taken p other) ∧
        s.filesOfPages formatting (p.slug :: taken) rest = .error fault := by
  have hmore (part : List SourceFile) :
      (s.filesOfPages formatting (p.slug :: taken) rest >>= fun more =>
        (.ok (part ++ more) : Except SiteError _)) = .error fault ↔
        s.filesOfPages formatting (p.slug :: taken) rest = .error fault := by
    rw [bind_eq_error_iff]
    exact or_iff_left (by rintro ⟨more, -, ⟨⟩⟩)
  rw [filesOfPages_cons_eq, bind_eq_error_iff]
  simp only [hmore, exists_and_right, exists_eq_ok_iff, ne_eq, pagePart_eq_error_iff]

theorem filesOfPages_eq_error_iff {pages : List Page} :
    s.filesOfPages formatting taken pages = .error fault ↔
      s.FirstPageFault formatting taken pages fault := by
  induction pages generalizing taken with
  | nil =>
    refine iff_of_false (by simp [filesOfPages]) ?_
    rintro ⟨hsplit, -, -⟩
    simp at hsplit
  | cons p rest ih =>
    -- Going past a page moves its slug from the pages in front to those that are taken.
    have hpast (slugs : List String) (q : Page) (other : SiteError) :
        s.PageFault formatting (p.slug :: taken ++ slugs) q other ↔
          s.PageFault formatting (taken ++ p.slug :: slugs) q other :=
      PageFault.congr (by simp [or_left_comm])
    rw [filesOfPages_cons_eq_error_iff, ih]
    constructor
    · rintro (hfault | ⟨hnone, ⟨rfl, hbefore, hfault⟩⟩)
      · have hsplit : p :: rest = [] ++ p :: rest := rfl
        exact .intro hsplit (by simp) (by simpa using hfault)
      · refine .intro (List.cons_append).symm ?_ ((hpast _ _ _).mp hfault)
        rintro (_ | ⟨_, earlier⟩) q later hsplit other
        · obtain ⟨rfl, -⟩ := List.cons.inj hsplit
          simpa using hnone other
        · obtain ⟨rfl, rfl⟩ := List.cons.inj hsplit
          exact fun h => hbefore earlier q later rfl other ((hpast _ _ _).mpr h)
    · rintro @⟨_ | ⟨_, before⟩, after, q, hsplit, hbefore, hfault⟩
      · obtain ⟨rfl, rfl⟩ := List.cons.inj hsplit
        exact .inl (by simpa using hfault)
      · obtain ⟨rfl, rfl⟩ := List.cons.inj hsplit
        have hfirst := hbefore [] p before rfl
        refine .inr ⟨by simpa using hfirst, .intro rfl ?_ ((hpast _ _ _).mpr hfault)⟩
        rintro earlier r later rfl other h
        exact hbefore (p :: earlier) r later rfl other ((hpast _ _ _).mp h)

/-- The fault of a site: its slug; or else the first animation id that is none; or else the fault of
its first page that has one. -/
inductive HasFault (s : Site) (formatting : Formatting) : SiteError → Prop where
  | slug : ¬ MadeOf slugRanges s.slug → HasFault s formatting (.page (.invalidSlug s.slug))
  | animationId {before after : List Animation} {a : Animation} : MadeOf slugRanges s.slug →
      s.animations = before ++ a :: after → (∀ b ∈ before, MadeOf animationIdRanges b.id) →
      ¬ MadeOf animationIdRanges a.id → HasFault s formatting (.invalidAnimationId a.id)
  | page {fault : SiteError} : MadeOf slugRanges s.slug →
      (∀ a ∈ s.animations, MadeOf animationIdRanges a.id) →
      s.FirstPageFault formatting [] s.pages fault → HasFault s formatting fault

theorem project_eq_error_iff :
    s.project formatting = .error fault ↔ s.HasFault formatting fault := by
  have hfiles : (s.filesOfPages formatting [] s.pages >>= fun files =>
      (.ok (files ++ [⟨"package.json", s.manifest⟩]) : Except SiteError _)) = .error fault ↔
      s.FirstPageFault formatting [] s.pages fault := by
    rw [bind_eq_error_iff, filesOfPages_eq_error_iff]
    exact or_iff_left (by rintro ⟨files, -, ⟨⟩⟩)
  constructor
  · intro h
    unfold project at h
    cases hs : isSlug s.slug with
    | false =>
      rw [hs] at h
      obtain rfl := Except.error.inj h
      exact .slug fun hslug => absurd (isSlug_iff.mpr hslug) (by simp [hs])
    | true =>
      have hslug := isSlug_iff.mp hs
      cases hfind : s.animations.find? fun a => !isAnimationId a.id with
      | some a =>
        simp only [hs, hfind] at h
        obtain rfl := Except.error.inj h
        obtain ⟨hid, before, after, hsplit, hbefore⟩ := List.find?_eq_some_iff_append.mp hfind
        refine .animationId hslug hsplit (fun b hb => ?_) fun h => ?_
        · exact isAnimationId_iff.mp (by simpa using hbefore b hb)
        · simp [isAnimationId_iff.mpr h] at hid
      | none =>
        simp only [hs, hfind] at h
        refine .page hslug (fun a ha => ?_) (hfiles.mp h)
        exact isAnimationId_iff.mp (by simpa using List.find?_eq_none.mp hfind a ha)
  · rintro (hslug | @⟨before, after, a, hslug, hsplit, hbefore, hid⟩ | ⟨hslug, hids, hpages⟩)
    · have hs : isSlug s.slug = false := Bool.eq_false_iff.mpr (mt isSlug_iff.mp hslug)
      rw [project, hs]
      rfl
    · have hs : isSlug s.slug = true := isSlug_iff.mpr hslug
      have hfind : (s.animations.find? fun a => !isAnimationId a.id) = some a := by
        refine List.find?_eq_some_iff_append.mpr ⟨?_, before, after, hsplit, fun b hb => ?_⟩
        · simp [Bool.eq_false_iff.mpr (mt isAnimationId_iff.mp hid)]
        · simp [isAnimationId_iff.mpr (hbefore b hb)]
      rw [project, hs, hfind]
      rfl
    · have hs : isSlug s.slug = true := isSlug_iff.mpr hslug
      have hfind : (s.animations.find? fun a => !isAnimationId a.id) = none := by
        simpa [isAnimationId_iff] using hids
      rw [project, hs, hfind]
      exact hfiles.mpr hpages

/-- A project fails with the fault of the site, and is generated exactly when there is none. -/
theorem rejection_exact (s : Site) (formatting : Formatting) :
    (∀ fault, s.project formatting = .error fault ↔ s.HasFault formatting fault) ∧
      ((∃ files, s.project formatting = .ok files) ↔ ∀ fault, ¬ s.HasFault formatting fault) := by
  refine ⟨fun _ => project_eq_error_iff, ?_⟩
  simp only [← project_eq_error_iff, exists_eq_ok_iff, ne_eq]

end Site

end Pagewright
