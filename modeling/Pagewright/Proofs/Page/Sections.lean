import Pagewright.Page.Source
import Pagewright.Proofs.Markup.Balance
import Pagewright.Proofs.Site.Project
import Pagewright.Proofs.Source.CodeLines

/-! What can be read off the finished source of a page: the imports at its beginning, and its
main part. -/

namespace Pagewright

def startsImport (line : List Char) : Bool := "import ".toList.isPrefixOf line

def endsMain (line : List Char) : Bool := "</main>".toList.isSuffixOf line

def beginsMain (line : List Char) : Bool := "    <main>".toList.isPrefixOf line

/-- The import lines at the beginning of a source, behind its directive. -/
def importSection (text : String) : List (List Char) :=
  ((codeLines text.toList).dropWhile fun line => !startsImport line).takeWhile startsImport

/-- The main part of a source, from the last line that begins one to the last line that ends one. -/
def mainPart (text : String) : String :=
  let ending := (codeLines text.toList).reverse.dropWhile fun line => !endsMain line
  let main := (ending.takeWhile fun line => !beginsMain line) ++ (ending.find? beginsMain).toList
  String.ofList (unlines main.reverse)

/-- The line in front of the last one that ends a main part. -/
def lastOfMain? (text : String) : Option (List Char) :=
  ((codeLines text.toList).reverse.dropWhile fun line => !endsMain line).tail.head?

theorem importSection_eq {text : String} {before imports after : List (List Char)}
    {next : List Char} (h : codeLines text.toList = before ++ (imports ++ next :: after))
    (hbefore : ∀ line ∈ before, ¬ startsImport line)
    (himports : ∀ line ∈ imports, startsImport line) (hne : imports ≠ [])
    (hnext : ¬ startsImport next) : importSection text = imports := by
  have hskip : ∀ line ∈ before, (!startsImport line) = true := fun line hm => by
    simpa using hbefore line hm
  have hbegin : (imports ++ next :: after).dropWhile (fun line => !startsImport line) =
      imports ++ next :: after := by
    obtain ⟨first, more, rfl⟩ := List.exists_cons_of_ne_nil hne
    rw [List.cons_append, List.dropWhile_cons, himports first List.mem_cons_self]
    rfl
  rw [importSection, h, List.dropWhile_append_of_pos hskip, hbegin,
    List.takeWhile_append_of_pos himports, List.takeWhile_cons_of_neg hnext, List.append_nil]

theorem lastOfMain?_eq {text : String} {before after : List (List Char)} {line closing : List Char}
    (h : codeLines text.toList = before ++ line :: closing :: after) (hclosing : endsMain closing)
    (hafter : ∀ line ∈ after, ¬ endsMain line) : lastOfMain? text = some line := by
  have hskip : ∀ line ∈ after.reverse, (!endsMain line) = true := by
    intro line hm
    simpa using hafter line (List.mem_reverse.mp hm)
  have hreverse : (codeLines text.toList).reverse =
      after.reverse ++ closing :: line :: before.reverse := by
    rw [h]
    simp
  rw [lastOfMain?, hreverse, List.dropWhile_append_of_pos hskip, List.dropWhile_cons]
  simp [hclosing]

/-- A main part between lines that neither begin nor end another one. -/
theorem mainPart_eq {text : String} {before more after : List (List Char)} {first : List Char}
    (h : codeLines text.toList = before ++ first :: (more ++ after)) (hfirst : beginsMain first)
    (hmore : ∀ line ∈ more, ¬ beginsMain line)
    (hlast : ∀ line ∈ (first :: more).getLast?, endsMain line)
    (hafter : ∀ line ∈ after, ¬ endsMain line) :
    mainPart text = String.ofList (unlines (first :: more)) := by
  -- The part is found from behind, so what is first in it is looked for last.
  have hskip : ∀ line ∈ after.reverse, (!endsMain line) = true := fun line hm => by
    simpa using hafter line (List.mem_reverse.mp hm)
  have hinner : ∀ line ∈ more.reverse, (!beginsMain line) = true := fun line hm => by
    simpa using hmore line (List.mem_reverse.mp hm)
  have hreverse : (codeLines text.toList).reverse =
      after.reverse ++ (more.reverse ++ first :: before.reverse) := by
    rw [h]
    simp
  have hending : (more.reverse ++ first :: before.reverse).dropWhile (fun line => !endsMain line) =
      more.reverse ++ first :: before.reverse := by
    obtain ⟨front, last, hends⟩ :=
      (List.eq_nil_or_concat' (first :: more)).resolve_left (List.cons_ne_nil first more)
    have hclosing : endsMain last :=
      hlast last (by rw [hends, List.getLast?_concat, Option.mem_def])
    have hwhole : more.reverse ++ first :: before.reverse =
        last :: (front.reverse ++ before.reverse) :=
      calc more.reverse ++ first :: before.reverse
        _ = (first :: more).reverse ++ before.reverse := by simp
        _ = last :: (front.reverse ++ before.reverse) := by rw [hends]; simp
    rw [hwhole, List.dropWhile_cons_of_neg (by simpa using hclosing)]
  have hnone : more.reverse.find? beginsMain = none :=
    List.find?_eq_none.mpr fun line hm => hmore line (List.mem_reverse.mp hm)
  have hfind : (more.reverse ++ first :: before.reverse).find? beginsMain = some first := by
    rw [List.find?_append, hnone, Option.none_or, List.find?_cons_of_pos hfirst]
  rw [mainPart, hreverse, List.dropWhile_append_of_pos hskip, hending,
    List.takeWhile_append_of_pos hinner, List.takeWhile_cons_of_neg (by simpa using hfirst), hfind]
  simp

namespace TemplateData

/-- The main part without the line break behind it. -/
def mainText (d : TemplateData) : String :=
  match d.markup with
  | none => "    <main></main>"
  | some markup => "    <main>\n" ++ indentText markup 6 ++ "\n    </main>"

theorem mainBlock_eq (d : TemplateData) : d.mainBlock = d.mainText ++ "\n" := by
  unfold mainBlock mainText
  cases d.markup with
  | none => rfl
  | some markup =>
    apply String.toList_injective
    simp

theorem codeLines_mainText (d : TemplateData) : codeLines d.mainText.toList =
    match d.markup with
    | none => ["    <main></main>".toList]
    | some markup => "    <main>".toList ::
        (codeLines markup.toList).map (List.replicate 6 ' ' ++ ·) ++ ["    </main>".toList] := by
  unfold mainText
  split
  · decide
  · next markup _ =>
    have htext : ("    <main>\n" ++ indentText markup 6 ++ "\n    </main>").toList =
        "    <main>".toList ++ '\n' :: ((indentText markup 6).toList ++
          '\n' :: "    </main>".toList) := by simp
    have hopen : codeLines "    <main>".toList = ["    <main>".toList] := by decide
    have hclose : codeLines "    </main>".toList = ["    </main>".toList] := by decide
    rw [htext, codeLines_append_break, codeLines_append_break, codeLines_indentText, hopen, hclose]
    rfl

/-- A main part begins in its first line and ends in its last. -/
theorem exists_codeLines_mainText (d : TemplateData) : ∃ first more,
    codeLines d.mainText.toList = first :: more ∧ beginsMain first ∧
      (∀ line ∈ more, ¬ beginsMain line) ∧ ∀ line ∈ (first :: more).getLast?, endsMain line := by
  rw [codeLines_mainText]
  split
  · exact ⟨_, _, rfl, by decide, nofun, by decide⟩
  · next markup _ =>
    have hclose : ∀ line ∈ ["    </main>".toList], ¬ beginsMain line ∧ endsMain line := by decide
    have hopen : beginsMain "    <main>".toList := by decide
    refine ⟨_, _, List.cons_append, hopen, ?_, ?_⟩
    · refine List.forall_mem_append.mpr ⟨List.forall_mem_map.mpr fun line _ => ?_,
        fun line hm => (hclose line hm).1⟩
      exact Bool.false_ne_true
    · intro line hm
      rw [← List.cons_append, List.getLast?_concat, Option.mem_def, Option.some.injEq] at hm
      exact hm ▸ (hclose _ (List.mem_singleton_self _)).2

/-- The lines of a markup that hold something can be read off the main part around it. -/
theorem codeLines_ofPage_inj {name a b : String}
    (h : codeLines (ofPage name a).mainText.toList = codeLines (ofPage name b).mainText.toList) :
    codeLines a.toList = codeLines b.toList := by
  have hlength := congrArg List.length h
  simp only [codeLines_mainText, ofPage] at h hlength
  by_cases ha : a = "" <;> by_cases hb : b = ""
  · rw [ha, hb]
  · simp [ha, hb] at hlength
  · simp [ha, hb] at hlength
  · simp only [if_neg ha, if_neg hb, List.cons_append, List.cons.injEq, true_and] at h
    exact List.map_injective_iff.mpr (List.append_right_injective _) (List.append_cancel_right h)

end TemplateData

namespace Template

/-- The text returns the main part, between lines that are the same for every markup, and nothing
behind it ends one. -/
private def ReturnsMain (name : String) (text : Option String → String) : Prop :=
  (∃ before after, (∀ markup, codeLines (text markup).toList = before ++
    "  return (".toList :: codeLines (TemplateData.mk name markup).mainText.toList ++ after) ∧
    ∀ line ∈ after, ¬ endsMain line) ∧ ∀ markup, (text markup).toList.getLast? = some '\n'

variable {name : String}

private theorem getLast?_append_break (text : String) {piece : String}
    (h : piece.toList.getLast? = some '\n') : (text ++ piece).toList.getLast? = some '\n' := by
  rw [String.toList_append, List.getLast?_append, h]
  rfl

private theorem returnsMain_mainBlock {text : String} (htext : text.toList.getLast? = some '\n') :
    ReturnsMain name fun markup =>
      text ++ "  return (\n" ++ (TemplateData.mk name markup).mainBlock := by
  have hreturn : codeLines "  return (\n".toList = ["  return (".toList] := by decide
  have hbegin := getLast?_append_break text (by decide : "  return (\n".toList.getLast? = some '\n')
  refine ⟨⟨codeLines text.toList, [], fun markup => ?_, nofun⟩, fun markup => ?_⟩ <;>
    dsimp only <;> rw [TemplateData.mainBlock_eq]
  · have hmain : ((TemplateData.mk name markup).mainText ++ "\n").toList =
        (TemplateData.mk name markup).mainText.toList ++ '\n' :: [] := by simp
    rw [String.toList_append, codeLines_append hbegin, String.toList_append,
      codeLines_append htext, hreturn, hmain, codeLines_append_break]
    simp [codeLines, lines]
  · rw [← String.append_assoc]
    exact getLast?_append_break _ (by decide)

private theorem ReturnsMain.append {text : Option String → String} (h : ReturnsMain name text)
    {piece : String} (hend : piece.toList.getLast? = some '\n')
    (hplain : ∀ line ∈ codeLines piece.toList, ¬ endsMain line) :
    ReturnsMain name fun markup => text markup ++ piece := by
  obtain ⟨⟨before, after, hlines, hafter⟩, hlast⟩ := h
  refine ⟨⟨before, after ++ codeLines piece.toList, fun markup => ?_, ?_⟩, fun markup => ?_⟩
  · rw [String.toList_append, codeLines_append (hlast markup), hlines, List.append_assoc]
  · exact List.forall_mem_append.mpr ⟨hafter, hplain⟩
  · exact getLast?_append_break (text markup) hend

/-- In every form of a page the main part is what is returned last. -/
theorem codeLines_fill_page (mode : RenderMode) (name : String) : ∃ before after,
    (∀ markup, codeLines ((page mode).fill ⟨name, markup⟩).toList = before ++
      "  return (".toList :: codeLines (TemplateData.mk name markup).mainText.toList ++ after) ∧
      ∀ line ∈ after, ¬ endsMain line := by
  suffices h : ReturnsMain name fun markup => (page mode).fill ⟨name, markup⟩ from h.1
  cases mode <;> unfold fill <;> dsimp only
  case static =>
    unfold staticPage
    dsimp only
    iterate 2 refine ReturnsMain.append ?_ (by decide) (by decide)
    exact returnsMain_mainBlock (getLast?_append_break _ (by decide))
  case server =>
    unfold serverPage
    dsimp only
    iterate 2 refine ReturnsMain.append ?_ (by decide) (by decide)
    exact returnsMain_mainBlock (getLast?_append_break _ (by decide))
  case incremental =>
    unfold incrementalPage
    dsimp only
    iterate 18 refine ReturnsMain.append ?_ (by decide) (by decide)
    exact returnsMain_mainBlock (getLast?_append_break _ (by decide))
  case client =>
    unfold clientPage
    dsimp only
    iterate 2 refine ReturnsMain.append ?_ (by decide) (by decide)
    exact returnsMain_mainBlock (getLast?_append_break _ (by decide))

end Template

namespace Page

variable {p : Page} {options : PageOptions} {limit : Option Nat} {source : String}

/-- The built-in formatter is never late. -/
theorem source_tidy_eq_ok_iff : p.source ⟨tidyFormatter, limit⟩ options = .ok source ↔
    checkBraces (p.draft options).toList = .ok () ∧
      source = String.ofList (settleBlanks (p.draft options).toList) := by
  have hformat : p.source ⟨tidyFormatter, limit⟩ options =
      (tidy (p.draft options).toList).map String.ofList := by
    unfold Page.source Formatting.format
    cases limit with
    | none => rfl
    | some limit =>
      have hlate : ¬ limit < min tidyFormatter.delay longestWait := Nat.not_lt_zero limit
      dsimp only
      rw [if_neg hlate]
      rfl
  rw [hformat, tidy]
  cases checkBraces (p.draft options).toList with
  | error fault => exact iff_of_false nofun nofun
  | ok _ =>
    rw [eq_self_iff_true, true_and]
    exact ⟨fun h => (Except.ok.inj h).symm, fun h => congrArg Except.ok h.symm⟩

theorem codeLines_source (h : p.source ⟨tidyFormatter, limit⟩ options = .ok source) :
    codeLines source.toList = codeLines (p.draft options).toList := by
  obtain ⟨-, rfl⟩ := source_tidy_eq_ok_iff.mp h
  rw [String.toList_ofList, codeLines_settleBlanks]

theorem codeLines_withRouteConfig (p : Page) (source : String) :
    codeLines (p.withRouteConfig source).toList =
      codeLines source.toList ++ codeLines p.routeConfig.toList := by
  unfold withRouteConfig
  split
  · next hnone =>
    rw [hnone]
    exact (List.append_nil _).symm
  · have htext : (source ++ "\n" ++ p.routeConfig ++ "\n").toList =
        source.toList ++ '\n' :: (p.routeConfig.toList ++ '\n' :: []) := by simp
    rw [htext, codeLines_append_break, codeLines_append_break]
    simp [codeLines, lines]

theorem routeConfig_not_endsMain (p : Page) :
    ∀ line ∈ codeLines p.routeConfig.toList, ¬ endsMain line := by
  unfold routeConfig
  cases p.mode <;> decide

/-- The parts of a draft, line by line. -/
theorem codeLines_draft (p : Page) (options : PageOptions) : codeLines (p.draft options).toList =
    (if p.needsClient options then ["\"use client\";".toList] else []) ++
      ((p.importLines options).flatMap fun line => codeLines line.toList) ++
        codeLines p.metadataSource.toList ++ codeLines (p.component options).toList := by
  have htext : (joinLines (p.importLines options) ++ "\n\n" ++ p.metadataSource ++ "\n\n" ++
      p.component options).toList = (joinLines (p.importLines options)).toList ++
        '\n' :: ([] ++ '\n' :: (p.metadataSource.toList ++
          '\n' :: ([] ++ '\n' :: (p.component options).toList))) := by simp
  have hrest : codeLines (joinLines (p.importLines options) ++ "\n\n" ++ p.metadataSource ++
      "\n\n" ++ p.component options).toList =
        ((p.importLines options).flatMap fun line => codeLines line.toList) ++
          codeLines p.metadataSource.toList ++ codeLines (p.component options).toList := by
    rw [htext, codeLines_append_break, codeLines_append_break, codeLines_append_break,
      codeLines_append_break, codeLines_joinLines]
    simp [codeLines, lines]
  unfold draft
  simp only [String.append_assoc] at hrest ⊢
  split
  · have hdirective : codeLines "\"use client\";\n\n".toList = ["\"use client\";".toList] := by
      decide
    rw [String.toList_append, codeLines_append (by decide), hdirective, hrest]
    simp
  · rw [String.empty_append, hrest]
    simp

/-- Where drafts of a page agree in all that stands before the component, the lines of the markup
can be read off them. -/
theorem codeLines_markupBlock_eq {options' : PageOptions}
    (hclient : p.needsClient options = p.needsClient options')
    (himports : p.importLines options = p.importLines options')
    (h : codeLines (p.draft options).toList = codeLines (p.draft options').toList) :
    codeLines (p.markupBlock options).toList = codeLines (p.markupBlock options').toList := by
  obtain ⟨before, after, hcomponent, -⟩ := Template.codeLines_fill_page p.mode p.name
  rw [codeLines_draft, codeLines_draft, hclient, himports, List.append_cancel_left_eq, component,
    component, TemplateData.ofPage, TemplateData.ofPage, hcomponent, hcomponent,
    List.append_cancel_right_eq, List.append_cancel_left_eq] at h
  exact TemplateData.codeLines_ofPage_inj (List.cons.inj h).2

private theorem importLines_whole (hlines : ∀ line ∈ options.imports,
    codeLines line.toList = [line.toList] ∧ startsImport line.toList) :
    ∀ line ∈ p.importLines options,
      codeLines line.toList = [line.toList] ∧ startsImport line.toList := by
  have hfixed : ∀ line ∈ ["import \x7b Metadata \x7d from \"next\";",
      "import Image from \"next/image\";", "import \x7b motion \x7d from \"framer-motion\";"],
      codeLines line.toList = [line.toList] ∧ startsImport line.toList := by decide
  simp only [List.forall_mem_cons] at hfixed
  obtain ⟨hmetadata, himage, hmotion, -⟩ := hfixed
  intro line hm
  unfold importLines at hm
  simp only [List.mem_append, List.mem_ite_nil_right, List.mem_singleton] at hm
  obtain ((rfl | ⟨-, rfl⟩) | ⟨-, rfl⟩) | hm := hm
  · exact hmetadata
  · exact himage
  · exact hmotion
  · exact hlines line hm

private theorem exists_codeLines_metadataSource (p : Page) : ∃ rest,
    codeLines p.metadataSource.toList =
      "export const metadata: Metadata = \x7b".toList :: rest := by
  unfold metadataSource
  rw [String.append_assoc, String.toList_append, codeLines_append (by decide)]
  exact ⟨_, rfl⟩

/-- A draft begins with the directive, if the page needs one, and the imports. -/
theorem exists_codeLines_opening (hlines : ∀ line ∈ options.imports,
    codeLines line.toList = [line.toList] ∧ startsImport line.toList) :
    ∃ rest, codeLines (p.draft options).toList =
      (if p.needsClient options then ["\"use client\";".toList] else []) ++
        ((p.importLines options).map String.toList ++
          "export const metadata: Metadata = \x7b".toList :: rest) := by
  have himports : ((p.importLines options).flatMap fun line => codeLines line.toList) =
      (p.importLines options).map String.toList := by
    rw [List.map_eq_flatMap]
    exact List.flatMap_congr fun line hm => (importLines_whole hlines line hm).1
  obtain ⟨rest, hrest⟩ := p.exists_codeLines_metadataSource
  refine ⟨rest ++ codeLines (p.component options).toList, ?_⟩
  rw [codeLines_draft, himports, hrest]
  simp only [List.append_assoc, List.cons_append]

/-- The imports of a page can be read off every text that begins like its draft. -/
theorem importSection_draft {text : String} {after : List (List Char)}
    (h : codeLines text.toList = codeLines (p.draft options).toList ++ after)
    (hlines : ∀ line ∈ options.imports, codeLines line.toList = [line.toList] ∧
      startsImport line.toList) :
    importSection text = (p.importLines options).map String.toList := by
  obtain ⟨rest, hrest⟩ := p.exists_codeLines_opening hlines
  rw [hrest, List.append_assoc, List.append_assoc, List.cons_append] at h
  refine importSection_eq h ?_ ?_ ?_ (by decide)
  · split <;> decide
  · exact List.forall_mem_map.mpr fun line hm => (importLines_whole hlines line hm).2
  · exact mt List.map_eq_nil_iff.mp (List.cons_ne_nil _ _)

private theorem mem_importSection_iff {text line : String} {after : List (List Char)}
    (h : codeLines text.toList = codeLines (p.draft options).toList ++ after)
    (hlines : ∀ line ∈ options.imports, codeLines line.toList = [line.toList] ∧
      startsImport line.toList) :
    line.toList ∈ importSection text ↔ line ∈ p.importLines options := by
  rw [importSection_draft h hlines]
  exact List.mem_map_of_injective fun _ _ heq => String.toList_injective heq

theorem mem_importSection_source {line : String}
    (h : p.source ⟨tidyFormatter, limit⟩ options = .ok source)
    (hlines : ∀ line ∈ options.imports, codeLines line.toList = [line.toList] ∧
      startsImport line.toList) :
    line.toList ∈ importSection source ↔ line ∈ p.importLines options :=
  mem_importSection_iff (by rw [codeLines_source h, List.append_nil]) hlines

theorem mem_importSection_page {line : String}
    (h : p.source ⟨tidyFormatter, limit⟩ options = .ok source)
    (hlines : ∀ line ∈ options.imports, codeLines line.toList = [line.toList] ∧
      startsImport line.toList) :
    line.toList ∈ importSection (p.withRouteConfig source) ↔ line ∈ p.importLines options :=
  mem_importSection_iff (by rw [codeLines_withRouteConfig, codeLines_source h]) hlines

/-- The main part of a page stands between lines that do not end one. -/
theorem exists_codeLines_main (p : Page) (options : PageOptions) :
    ∃ start rest, codeLines (p.draft options).toList = start ++ "  return (".toList ::
        codeLines (TemplateData.ofPage p.name (p.markupBlock options)).mainText.toList ++ rest ∧
      ∀ line ∈ rest, ¬ endsMain line := by
  obtain ⟨before, after, hcomponent, hafter⟩ := Template.codeLines_fill_page p.mode p.name
  refine ⟨(if p.needsClient options then ["\"use client\";".toList] else []) ++
    ((p.importLines options).flatMap fun line => codeLines line.toList) ++
      codeLines p.metadataSource.toList ++ before, after, ?_, hafter⟩
  rw [codeLines_draft, component, TemplateData.ofPage, hcomponent]
  simp only [List.append_assoc, List.cons_append]

/-- The main part of a finished source is the one that its template sets up. -/
theorem mainPart_source (h : p.source ⟨tidyFormatter, limit⟩ options = .ok source) :
    mainPart source = String.ofList (unlines (codeLines
      (TemplateData.ofPage p.name (p.markupBlock options)).mainText.toList)) := by
  obtain ⟨start, rest, hdraft, hrest⟩ := p.exists_codeLines_main options
  obtain ⟨first, more, hmain, hfirst, hmore, hlast⟩ :=
    (TemplateData.ofPage p.name (p.markupBlock options)).exists_codeLines_mainText
  have hsource : codeLines source.toList =
      (start ++ ["  return (".toList]) ++ first :: (more ++ rest) := by
    rw [codeLines_source h, hdraft, hmain]
    simp only [List.append_assoc, List.cons_append, List.nil_append]
  rw [mainPart_eq hsource hfirst hmore hlast hrest, hmain]

/-- What stands last in the markup of a page stands last in the main part of its source. -/
theorem lastOfMain?_page (h : p.source ⟨tidyFormatter, limit⟩ options = .ok source) :
    lastOfMain? (p.withRouteConfig source) =
      if p.markupBlock options = "" then some "  return (".toList
      else some (((codeLines (p.markupBlock options).toList).getLast?).elim "    <main>".toList
        (List.replicate 6 ' ' ++ ·)) := by
  obtain ⟨start, after, hdraft, hafter⟩ := p.exists_codeLines_main options
  obtain ⟨rest, htext, hend⟩ : ∃ rest, codeLines (p.withRouteConfig source).toList =
      start ++ "  return (".toList ::
        codeLines (TemplateData.ofPage p.name (p.markupBlock options)).mainText.toList ++ rest ∧
      ∀ line ∈ rest, ¬ endsMain line :=
    ⟨after ++ codeLines p.routeConfig.toList,
      by rw [codeLines_withRouteConfig, codeLines_source h, hdraft, List.append_assoc],
      List.forall_mem_append.mpr ⟨hafter, p.routeConfig_not_endsMain⟩⟩
  rw [TemplateData.codeLines_mainText, TemplateData.ofPage] at htext
  split
  · next hempty =>
    simp only [if_pos hempty] at htext
    exact lastOfMain?_eq (htext.trans (List.append_assoc _ _ _)) (by decide) hend
  · next hempty =>
    simp only [if_neg hempty] at htext
    have hclose : endsMain "    </main>".toList := by decide
    rcases List.eq_nil_or_concat (codeLines (p.markupBlock options).toList) with
      hnone | ⟨init, last, hlast⟩
    · rw [hnone] at htext ⊢
      have hsplit : codeLines (p.withRouteConfig source).toList =
          (start ++ ["  return (".toList]) ++ "    <main>".toList :: "    </main>".toList ::
            rest := by
        rw [htext]
        simp only [List.map_nil, List.append_assoc, List.cons_append, List.nil_append]
      exact lastOfMain?_eq hsplit hclose hend
    · rw [hlast] at htext ⊢
      have hsplit : codeLines (p.withRouteConfig source).toList =
          (start ++ "  return (".toList :: "    <main>".toList ::
            init.map (List.replicate 6 ' ' ++ ·)) ++ (List.replicate 6 ' ' ++ last) ::
              "    </main>".toList :: rest := by
        rw [htext]
        simp only [List.concat_eq_append, List.map_append, List.map_cons, List.map_nil,
          List.append_assoc, List.cons_append, List.nil_append]
      rw [List.concat_eq_append, List.getLast?_append]
      exact lastOfMain?_eq hsplit hclose hend

end Page

end Pagewright
