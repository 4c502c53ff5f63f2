import Pagewright.Proofs.Forest.Visits
import Pagewright.Proofs.Markup.Outline
import Pagewright.Proofs.Page.Acceptance
import Pagewright.Proofs.Page.Sections
import Pagewright.Proofs.Source.Tidied

/-!
What the markup of a page needs of its source. The directive and the imports are decided by walks of
their own through the layout, and they cover the elements that are read in the finished source.
-/

namespace Pagewright

variable {key : String}

section Margins

variable {s s' : MarkupScan} {ls : List (List Char)}

/-- In front of a line break the blanks at the end of a line may be left out. -/
private theorem calmRun?_trimEnd {line : List Char}
    (h : s.calmRun? key (line ++ ['\n']) = some s') :
    s.calmRun? key (trimEnd line ++ ['\n']) = some s' := by
  -- Blanks go one by one from the end, and in front of a line break each leaves the reader as it is.
  induction line using List.reverseRecOn with
  | nil => exact h
  | append_singleton line c ih =>
    by_cases hc : isBlank c
    · have htrim : trimEnd (line ++ [c]) = trimEnd line := by
        rw [trimEnd_append, if_pos (by simp [trimEnd, hc])]
      rw [htrim]
      apply ih
      rw [List.append_assoc, MarkupScan.calmRun?_append] at h
      obtain ⟨before, hline, hends⟩ := Option.bind_eq_some_iff.mp h
      rw [List.singleton_append, MarkupScan.calmRun?_cons] at hends
      obtain ⟨next, hblank, hbreak⟩ := Option.bind_eq_some_iff.mp hends
      have hsame : next = before := by
        rw [MarkupScan.calmRun?_cons] at hbreak
        obtain ⟨last, hlast, -⟩ := Option.bind_eq_some_iff.mp hbreak
        exact MarkupScan.eq_of_calmStep?_blank hc hblank (MarkupScan.calmStep?_break hlast).1
      rw [MarkupScan.calmRun?_append, hline, Option.bind_some, ← hsame]
      exact hbreak
    · have htrim : trimEnd (line ++ [c]) = line ++ [c] := by
        rw [trimEnd_append, if_neg (by simp [trimEnd, hc])]
        simp [trimEnd, hc]
      rw [htrim]
      exact h

private theorem calmRun?_break (h : s.calmRun? key ['\n'] = some s') :
    s.mode = .text ∧ s' = s := by
  rw [MarkupScan.calmRun?_cons] at h
  obtain ⟨next, hbreak, hnext⟩ := Option.bind_eq_some_iff.mp h
  obtain rfl := Option.some.inj hnext
  exact MarkupScan.calmStep?_break hbreak

/-- Behind a line break the reader is in running text. -/
private theorem mode_of_calmRun?_line {line : List Char}
    (h : s.calmRun? key (line ++ ['\n']) = some s') : s'.mode = .text := by
  rw [MarkupScan.calmRun?_append] at h
  obtain ⟨before, -, hbreak⟩ := Option.bind_eq_some_iff.mp h
  obtain ⟨hmode, rfl⟩ := calmRun?_break hbreak
  exact hmode

private theorem calmRun?_spaces (hs : s.mode = .text) (spaces : Nat) (rest : List Char) :
    s.calmRun? key (List.replicate spaces ' ' ++ rest) = s.calmRun? key rest := by
  obtain ⟨mode, siblings, opened⟩ := s
  subst hs
  exact (MarkupScan.isSettled_text key siblings opened).foldlM_spaces spaces rest

/-- Blank lines say nothing in running text, nor does how far the other lines are set in. -/
private theorem calmRun?_unlines (hs : s.mode = .text) (spaces : Nat)
    (h : s.calmRun? key (unlines ls) = some s') :
    s.calmRun? key (unlines (((ls.map trimEnd).filter fun line => line ≠ []).map
      (List.replicate spaces ' ' ++ ·))) = some s' := by
  induction ls generalizing s with
  | nil => exact h
  | cons line rest ih =>
    have htext : unlines (line :: rest) = (line ++ ['\n']) ++ unlines rest := by
      rw [unlines_cons, List.append_assoc, List.singleton_append]
    rw [htext, MarkupScan.calmRun?_append] at h
    obtain ⟨next, hline, hrest⟩ := Option.bind_eq_some_iff.mp h
    have htrim := calmRun?_trimEnd hline
    have hbelow := ih (mode_of_calmRun?_line hline) hrest
    rw [List.map_cons]
    by_cases hempty : trimEnd line = []
    · rw [hempty, List.nil_append] at htrim
      obtain ⟨-, rfl⟩ := calmRun?_break htrim
      rw [List.filter_cons_of_neg (by simpa using hempty)]
      exact hbelow
    · rw [List.filter_cons_of_pos (by simpa using hempty), List.map_cons, unlines_cons,
        List.append_assoc, calmRun?_spaces hs, ← List.singleton_append, ← List.append_assoc,
        MarkupScan.calmRun?_append, htrim, Option.bind_some]
      exact hbelow

end Margins

/-- A text adds the same elements when only its lines that hold something are left, set in. -/
theorem GivesElements.setIn {text : List Char} {elements : List Outline}
    (h : GivesElements key text elements) (spaces : Nat) : GivesElements key
      (unlines ((codeLines text).map (List.replicate spaces ' ' ++ ·))) elements := by
  intro siblings opened
  have hsettled := MarkupScan.isSettled_text key siblings opened
  have hkeep : Indents fun line => line := fun line => ⟨0, rfl⟩
  have hend := h.append lineBreak
  rw [List.append_nil] at hend
  apply calmRun?_unlines rfl
  have hlines := hsettled.foldlM_unlines hkeep text
  rw [List.map_id'] at hlines
  rw [MarkupScan.calmRun?, hlines]
  exact (MarkupScan.skipsMargins key).foldlM_reflow hkeep text trivial (hend siblings opened)

mutual

/-- The tags of an element and all elements in it, each with the values that are read there. -/
def Outline.labels : Outline → List (String × List String)
  | .node tag values children => (tag, values) :: Outline.allLabels children

def Outline.allLabels : List Outline → List (String × List String)
  | [] => []
  | first :: rest => first.labels ++ Outline.allLabels rest

end

theorem Forest.allLabels_outlines (label : Element → String × List String) (forest : Forest) :
    Outline.allLabels (Forest.outlines label forest) = (Forest.rendered forest).map label := by
  induction forest using Forest.induction with
  | nil => simp only [outlines, rendered, Outline.allLabels, List.map_nil]
  | cons e rest below beside =>
    rw [outlines, Element.outline_eq, Outline.allLabels, Outline.labels, beside, rendered,
      Element.rendered_eq, List.map_append, List.map_cons]
    split
    · rw [below]
    · simp only [Outline.allLabels, List.map_nil]

/-- The main part around a markup adds one element, with the elements of the markup in it. -/
theorem mainText_givesElements {name markup : String} {elements : List Outline}
    (h : GivesElements key markup.toList elements) : GivesElements key
      (unlines (codeLines (TemplateData.ofPage name markup).mainText.toList))
      [.node "main" [] elements] := by
  rw [TemplateData.codeLines_mainText, TemplateData.ofPage]
  intro siblings opened
  by_cases hempty : markup = ""
  · subst hempty
    rw [h.eq_nil]
    rfl
  · simp only [if_neg hempty]
    have htext : unlines ("    <main>".toList ::
        (codeLines markup.toList).map (List.replicate 6 ' ' ++ ·) ++ ["    </main>".toList]) =
          "    <main>\n".toList ++
            (unlines ((codeLines markup.toList).map (List.replicate 6 ' ' ++ ·)) ++
              "    </main>\n".toList) := by
      have hopen : "    <main>\n".toList = "    <main>".toList ++ ['\n'] := by decide
      have hclose : "    </main>\n".toList = "    </main>".toList ++ ['\n'] := by decide
      rw [hopen, hclose]
      simp [unlines]
    rw [htext, MarkupScan.calmRun?_append]
    change (MarkupScan.calmRun? key ⟨.text, [], (⟨"main".toList, []⟩, siblings) :: opened⟩ _) = _
    rw [MarkupScan.calmRun?_append, h.setIn 6, Option.bind_some]
    rfl

/-- The names of attributes that handle an event. -/
def IsHandler (name : String) : Prop := "on".toList <+: name.toList

instance (name : String) : Decidable (IsHandler name) :=
  inferInstanceAs (Decidable ("on".toList <+: name.toList))

/-- The values of an event handler of an element: forms keep the page when they are submitted. -/
def Element.handlers (key : String) (e : Element) : List String :=
  if e.kind = .form ∧ key = "onSubmit" then ["(e) => e.preventDefault()"] else []

section Handlers

variable (hkey : IsHandler key)
include hkey

private theorem kindAttributes_giveHandlers (e : Element) :
    GiveValues key e.kindAttributes (e.handlers key) := by
  unfold Element.handlers
  by_cases hform : e.kind = .form ∧ key = "onSubmit"
  · rw [if_pos hform]
    obtain ⟨hkind, rfl⟩ := hform
    have hattributes : e.kindAttributes =
        ["onSubmit" ++ "=\x7b" ++ "(e) => e.preventDefault()" ++ "\x7d"] := by
      unfold Element.kindAttributes
      rw [hkind]
      rfl
    have hsubmit : GivesValues "onSubmit"
        ("onSubmit" ++ "=\x7b" ++ "(e) => e.preventDefault()" ++ "\x7d").toList
        (if "onSubmit" = "onSubmit" then ["(e) => e.preventDefault()"] else []) :=
      bracedText_givesValues "onSubmit" (by decide) (by decide) (by decide)
    rw [if_pos rfl] at hsubmit
    rw [hattributes]
    exact .singleton hsubmit
  · have hkinds : ∀ name ∈ kindKeys, IsHandler name → name = "onSubmit" := by decide
    rw [if_neg hform]
    refine .silent (kindAttributes_silent fun hm => ?_)
    have hsubmit := hkinds key hm hkey
    exact ⟨hsubmit, fun hkind => hform ⟨hkind, hsubmit⟩⟩

/-- The start tag of an element gives the handlers of its kind and no others. -/
theorem attributes_giveHandlers {e : Element} {binding : Option Binding}
    (bound : e.IsBoundBy binding) :
    GivesValues key (joinWith " " (e.attributes binding)).toList (e.handlers key) := by
  have hplain : ∀ name ∈ "className" :: "data-element-id" :: "id" :: motionKeys,
      ¬ IsHandler name := by decide
  have hkeys : key ∉ "className" :: "data-element-id" :: "id" :: motionKeys :=
    fun hm => hplain key hm hkey
  simp only [List.mem_cons, not_or] at hkeys
  obtain ⟨hclass, hid, hbound⟩ := hkeys
  have h := attributes_give (.silent (classAttribute_silent (Ne.symm hclass) e binding))
    (kindAttributes_giveHandlers hkey e)
    (.silent (bindingAttributes_silent (by simpa using hbound) bound))
  rwa [if_neg (Ne.symm hid), List.append_nil] at h

end Handlers

/-- A source begins with the directive for code in the browser. -/
def HasDirective (source : String) : Prop := (linesOf source).head? = some "\"use client\";"

def importImage : String := "import Image from \"next/image\";"

def importMotion : String := "import \x7b motion \x7d from \"framer-motion\";"

def htmlTags : List String := ["div", "p", "button", "form", "input"]

/-- A source provides for a tag in its main part and for an event handler there: what is not HTML is
imported, and what runs in the browser stands below the directive. -/
structure Provides (source tag : String) (handlers : List String) : Prop where
  known : tag ∈ htmlTags ∨ tag = "Image" ∨ ∃ name ∈ htmlTags, tag = "motion." ++ name
  image : tag = "Image" → importImage.toList ∈ importSection source
  motion : ∀ name, tag = "motion." ++ name →
    importMotion.toList ∈ importSection source ∧ HasDirective source
  handlers : handlers ≠ [] → HasDirective source

namespace ElementKind

variable {kind : ElementKind}

theorem tag_eq_image_iff : kind.tag = "Image" ↔ kind = .image := by
  cases kind <;> decide

theorem tag_mem_htmlTags (h : kind ≠ .image) : kind.tag ∈ htmlTags := by
  revert h
  cases kind <;> decide

theorem tag_ne_motion (kind : ElementKind) (name : String) : kind.tag ≠ "motion." ++ name := by
  have hplain : ¬ "motion.".toList <+: kind.tag.toList := by cases kind <;> decide
  intro heq
  rw [heq, String.toList_append] at hplain
  exact hplain (List.prefix_append _ _)

end ElementKind

namespace Page

variable {p : Page} {options : PageOptions} {animations : List Animation} {backend : Backend}
  {limit : Option Nat} {source : String}

theorem needsClient_iff : p.needsClient options ↔ options.animations ≠ [] ∨
    (∃ e ∈ Forest.preorder p.layout, e.kind ∈ [.button, .form, .input]) ∨ p.mode = .client := by
  rw [← Forest.containsInteractive_iff]
  simp [needsClient, or_assoc]

/-- Without further imports all import lines are fixed ones. -/
private theorem imports_whole (himports : options.imports = []) : ∀ line ∈ options.imports,
    codeLines line.toList = [line.toList] ∧ startsImport line.toList := by
  rw [himports]
  nofun

theorem hasDirective_iff (himports : options.imports = [])
    (h : p.source ⟨tidyFormatter, limit⟩ options = .ok source) :
    HasDirective source ↔ p.needsClient options := by
  obtain ⟨rest, hrest⟩ := p.exists_codeLines_opening (imports_whole himports)
  obtain ⟨-, rfl⟩ := source_tidy_eq_ok_iff.mp h
  rw [HasDirective, linesOf, String.toList_ofList, List.head?_map, head?_lines_settleBlanks, hrest]
  by_cases hneeds : p.needsClient options
  · rw [if_pos hneeds]
    exact iff_of_true rfl hneeds
  · rw [if_neg hneeds]
    have himport : "import \x7b Metadata \x7d from \"next\";" ≠ "\"use client\";" := by decide
    refine iff_of_false (fun heq => himport ?_) hneeds
    exact Option.some.inj heq

theorem importImage_mem_iff (himports : options.imports = [])
    (h : p.source ⟨tidyFormatter, limit⟩ options = .ok source) :
    importImage.toList ∈ importSection source ↔
      ∃ e ∈ Forest.preorder p.layout, e.kind = .image := by
  rw [mem_importSection_source h (imports_whole himports), ← Forest.containsKind_iff]
  simp [importLines, himports, importImage]

theorem importMotion_mem_iff (himports : options.imports = [])
    (h : p.source ⟨tidyFormatter, limit⟩ options = .ok source) :
    importMotion.toList ∈ importSection source ↔
      options.animations ≠ [] ∧ options.backend = .motion := by
  rw [mem_importSection_source h (imports_whole himports)]
  simp [importLines, himports, importMotion]

/-- Every element of a page gets what its tag and its handlers need. -/
theorem provides_shownTag (himports : options.imports = [])
    (h : p.source ⟨tidyFormatter, limit⟩ options = .ok source) {e : Element}
    (he : e ∈ Forest.preorder p.layout) : Provides source
      (e.shownTag options.animations options.backend) (e.handlers key) := by
  have hdirective : (options.animations ≠ [] ∨ e.kind ∈ [.button, .form, .input]) →
      HasDirective source := fun hneeds =>
    (hasDirective_iff himports h).mpr (needsClient_iff.mpr (hneeds.imp_right fun hkind =>
      .inl ⟨e, he, hkind⟩))
  have hhandlers : e.handlers key ≠ [] → HasDirective source := by
    intro hfull
    refine hdirective (.inr ?_)
    unfold Element.handlers at hfull
    split at hfull
    · next hform => simp [hform.1]
    · exact absurd rfl hfull
  unfold Element.shownTag
  split
  case isTrue hmotion =>
    obtain ⟨hbackend, himage, a, ha, -⟩ := hmotion
    have hanimated : options.animations ≠ [] := List.ne_nil_of_mem ha
    exact {
      known := .inr (.inr ⟨e.kind.tag, ElementKind.tag_mem_htmlTags himage, rfl⟩)
      image := fun heq => absurd heq (by cases e.kind <;> decide)
      motion := fun _ _ =>
        ⟨(importMotion_mem_iff himports h).mpr ⟨hanimated, hbackend⟩, hdirective (.inl hanimated)⟩
      handlers := hhandlers }
  case isFalse =>
    exact {
      known := by
        by_cases himage : e.kind = .image
        · exact .inr (.inl (ElementKind.tag_eq_image_iff.mpr himage))
        · exact .inl (ElementKind.tag_mem_htmlTags himage)
      image := fun heq => (importImage_mem_iff himports h).mpr
        ⟨e, he, ElementKind.tag_eq_image_iff.mp heq⟩
      motion := fun name heq => absurd heq (e.kind.tag_ne_motion name)
      handlers := hhandlers }

/-- The elements of the layout that appear in markup, with the values of an event handler. -/
def outlines (key : String) (p : Page) (animations : List Animation) (backend : Backend) :
    List Outline :=
  Forest.outlines (fun e => (e.shownTag animations backend, e.handlers key)) p.layout

theorem outlines?_mainPart (hkey : IsHandler key)
    (plain : ∀ e ∈ Forest.preorder p.layout, ¬ e.bringsComponent)
    (h : p.source ⟨tidyFormatter, limit⟩ ⟨animations, backend, [], []⟩ = .ok source) :
    outlines? key (mainPart source) =
      some [.node "main" [] (p.outlines key animations backend)] := by
  have hmarkup : GivesElements key (p.markupBlock ⟨animations, backend, [], []⟩).toList
      (p.outlines key animations backend) := by
    unfold outlines markupBlock
    simp only [← Element.tag_ofAnimations, List.append_nil]
    exact Forest.markup_givesElements p.layout
      (fun e he => plain e (Forest.rendered_subset p.layout e he)) fun e _ =>
        attributes_giveHandlers hkey (e.isBoundBy_ofAnimations animations backend)
  refine GivesElements.outlines?_eq ?_
  rw [mainPart_source h, String.toList_ofList]
  exact mainText_givesElements hmarkup

/-- The directive and the imports of a page fit its main part. The directive stands there exactly if
the page is animated, holds interactive elements or is rendered in the browser, motion is imported
only where animations need it, and no tag and no event handler that is read in the main part is
without its import or directive. -/
theorem requirements_met (plain : ∀ e ∈ Forest.preorder p.layout, ¬ e.bringsComponent)
    (h : p.source ⟨tidyFormatter, limit⟩ ⟨animations, backend, [], []⟩ = .ok source) :
    (HasDirective source ↔ animations ≠ [] ∨
        (∃ e ∈ Forest.preorder p.layout, e.kind ∈ [.button, .form, .input]) ∨ p.mode = .client) ∧
      (importMotion.toList ∈ importSection source → animations ≠ [] ∧ backend = .motion) ∧
      ∀ key, IsHandler key →
        outlines? key (mainPart source) =
            some [.node "main" [] (p.outlines key animations backend)] ∧
          ∀ label ∈ Outline.allLabels (p.outlines key animations backend),
            Provides source label.1 label.2 := by
  refine ⟨(hasDirective_iff rfl h).trans needsClient_iff, (importMotion_mem_iff rfl h).mp,
    fun key hkey => ⟨outlines?_mainPart hkey plain h, fun label hlabel => ?_⟩⟩
  rw [outlines, Forest.allLabels_outlines] at hlabel
  obtain ⟨e, he, rfl⟩ := List.mem_map.mp hlabel
  exact provides_shownTag rfl h (Forest.rendered_subset p.layout e he)

/-- A page with a form that holds a picture. -/
private def signup : Page :=
  { bare "p" "Join" "join" with
    layout := [(Element.bare "form" .form).withChild (Element.bare "logo" .image)] }

private def signupAnimations : List Animation := [.bare "in" "form" .entry]

theorem signup_requirements_met : (∀ e ∈ Forest.preorder signup.layout, ¬ e.bringsComponent) ∧
    ∃ source, signup.source .builtIn ⟨signupAnimations, .motion, [], []⟩ = .ok source ∧
      HasDirective source ∧
      outlines? "onSubmit" (mainPart source) = some [.node "main" []
        [.node "motion.form" ["(e) => e.preventDefault()"] [.node "Image" [] []]]] ∧
      importImage.toList ∈ importSection source ∧
      importMotion.toList ∈ importSection source := by
  have plain : ∀ e ∈ Forest.preorder signup.layout, ¬ e.bringsComponent := by decide
  have hvalues : ∀ e ∈ Forest.rendered signup.layout, ∀ value ∈ e.attributeValues,
      ¬ EndsInEscape value := by decide
  have contained : signup.IsSelfContained ⟨signupAnimations, .motion, [], []⟩ :=
    ⟨by decide +kernel, nofun, plain, rfl, rfl⟩
  obtain ⟨source, h⟩ := source_builtIn_ok contained hvalues
  obtain ⟨hdirective, -, hread⟩ := requirements_met plain h
  obtain ⟨hmain, hprovides⟩ := hread "onSubmit" (by decide)
  refine ⟨plain, source, h, hdirective.mpr (.inl (List.cons_ne_nil _ _)), hmain, ?_, ?_⟩
  · exact (hprovides ("Image", []) (by decide)).image rfl
  · exact ((hprovides ("motion.form", ["(e) => e.preventDefault()"]) (by decide)).motion "form"
      rfl).1

end Page

end Pagewright
