import Pagewright.Proofs.Page.ComponentName
import Pagewright.Proofs.Source.Indentation

/-! Every form of a page component is level when it is filled with level markup. -/

namespace Pagewright

section ComponentName

/-- Letters and digits open and close nothing. -/
theorem isInert_of_isAlphanum {c : Char} (h : c.isAlphanum) : isInert c :=
  forall_isAlphanum (p := fun c => isInert c) (by decide) h

theorem joinTokens_inert (begins : Bool) (name : List Char) :
    ∀ c ∈ joinTokens begins name, isInert c :=
  fun c hc => isInert_of_isAlphanum (isAlphanum_of_mem_joinTokens begins name c hc)

theorem componentName_level (name : String) : Level (componentName name).toList := by
  have hjoined : Level (joinTokens true name.toList) :=
    .of_inert (joinTokens_inert true name.toList)
  unfold componentName
  cases hcons : joinTokens true name.toList with
  | nil => rfl
  | cons c rest =>
    rw [hcons] at hjoined
    dsimp only
    rw [String.toList_ofList]
    split
    · have hpage : Level "Page".toList := rfl
      exact hpage.append hjoined
    · exact hjoined

end ComponentName

theorem indentBy_indents (spaces : Nat) : Indents (indentBy spaces) := by
  intro line
  unfold indentBy
  split
  · exact ⟨0, rfl⟩
  · exact ⟨spaces, rfl⟩

theorem indentText_level {content : String} (h : Level content.toList) (spaces : Nat) :
    Level ((indentText content spaces).toList ++ ['\n']) := by
  rw [indentText]
  refine h.joinLines_map ?_
  simp only [String.toList_ofList]
  exact indentBy_indents spaces

namespace TemplateData

theorem mainBlock_level {d : TemplateData} (h : ∀ markup ∈ d.markup, Level markup.toList) :
    Level d.mainBlock.toList := by
  have hopen : Level "    <main>".toList := by decide
  have hclose : Level "</main>\n".toList := by decide
  unfold mainBlock
  extract_lets inner
  have hinner : Level inner.toList := by
    unfold inner
    split
    · rfl
    · next markup hmarkup =>
      have hbreak : Level ['\n'] := rfl
      have hindent : Level "    ".toList := by decide
      have htext : ("\n" ++ indentText markup 6 ++ "\n    ").toList =
          ['\n'] ++ ((indentText markup 6).toList ++ ['\n']) ++ "    ".toList := by simp
      rw [htext]
      exact (hbreak.append (indentText_level (h markup hmarkup) 6)).append hindent
  simp only [String.toList_append]
  exact (hopen.append hinner).append hclose

end TemplateData

namespace Template

variable {d : TemplateData}

/-- A form of a page, filled with level markup, is level. -/
theorem fill_page_level (h : ∀ markup ∈ d.markup, Level markup.toList) (mode : RenderMode) :
    Level ((page mode).fill d).toList := by
  have hname := componentName_level d.name
  have hmain := d.mainBlock_level h
  -- The numbers are the braces open after each piece of the form, up to the main part.
  cases mode with
  | static =>
    unfold fill staticPage
    simp only [String.toList_append, List.append_assoc]
    refine Passes.append (y := 0) (by decide) ?_
    refine Passes.append (hname.passes 0) ?_
    refine Passes.append (y := 1) (by decide) ?_
    refine Passes.append (y := 1) (by decide) ?_
    refine Passes.append (hmain.passes 1) ?_
    decide
  | server =>
    unfold fill serverPage
    simp only [String.toList_append, List.append_assoc]
    refine Passes.append (y := 0) (by decide) ?_
    refine Passes.append (hname.passes 0) ?_
    refine Passes.append (y := 1) (by decide) ?_
    refine Passes.append (y := 1) (by decide) ?_
    refine Passes.append (y := 1) (by decide) ?_
    refine Passes.append (y := 1) (by decide) ?_
    refine Passes.append (hmain.passes 1) ?_
    decide
  | incremental =>
    unfold fill incrementalPage
    simp only [String.toList_append, List.append_assoc]
    refine Passes.append (y := 0) (by decide) ?_
    refine Passes.append (hname.passes 0) ?_
    refine Passes.append (y := 1) (by decide) ?_
    refine Passes.append (y := 1) (by decide) ?_
    refine Passes.append (hmain.passes 1) ?_
    decide +kernel
  | client =>
    unfold fill clientPage
    simp only [String.toList_append, List.append_assoc]
    refine Passes.append (y := 0) (by decide) ?_
    refine Passes.append (y := 0) (by decide) ?_
    refine Passes.append (y := 0) (by decide) ?_
    refine Passes.append (y := 0) (by decide) ?_
    refine Passes.append (y := 0) (by decide) ?_
    refine Passes.append (hname.passes 0) ?_
    refine Passes.append (y := 1) (by decide) ?_
    refine Passes.append (y := 1) (by decide) ?_
    refine Passes.append (y := 1) (by decide) ?_
    refine Passes.append (y := 2) (by decide) ?_
    refine Passes.append (y := 2) (by decide) ?_
    refine Passes.append (y := 1) (by decide) ?_
    refine Passes.append (y := 1) (by decide) ?_
    refine Passes.append (y := 2) (by decide) ?_
    refine Passes.append (y := 2) (by decide) ?_
    refine Passes.append (y := 1) (by decide) ?_
    refine Passes.append (y := 1) (by decide) ?_
    refine Passes.append (y := 1) (by decide) ?_
    refine Passes.append (hmain.passes 1) ?_
    decide

end Template

end Pagewright
