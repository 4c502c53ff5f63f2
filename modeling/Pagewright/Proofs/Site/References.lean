import Pagewright.Proofs.Page.Sections
import Pagewright.Proofs.Site.Artifacts

/-! What the sources of a project refer to: stylesheets, scripts and packages. Imports, mounts,
files and the manifest are decided apart from each other, and agree. -/

namespace Pagewright

section Markup

theorem exists_joinWith_concat (separator : String) (pieces : List String) (last : String) :
    ∃ before, joinWith separator (pieces ++ [last]) = before ++ last := by
  cases pieces with
  | nil => exact ⟨"", (String.empty_append).symm⟩
  | cons piece rest => exact ⟨_, joinWith_concat separator last (List.cons_ne_nil piece rest)⟩

/-- What the last line of an element can end in: its closing tag, or its last attribute. -/
def elementEnds : List String := ["div>", "p>", "button>", "form>", "\" />", "\x7d />"]

namespace Element

variable {e : Element} {binding : Option Binding}

/-- An attribute ends in a mark or a brace. -/
def ClosesAttribute (text : String) : Prop :=
  ∃ before, text = before ++ "\"" ∨ text = before ++ "\x7d"

theorem closesAttribute_attributeText (name value : String) :
    ClosesAttribute (attributeText name value) := ⟨_, .inl rfl⟩

private theorem kindAttributes_close : ∀ text ∈ e.kindAttributes, ClosesAttribute text := by
  intro text hm
  obtain ⟨name, -, value, -, rfl⟩ | ⟨fixed, -, -, rfl⟩ := mem_kindAttributes hm
  · exact closesAttribute_attributeText name value
  · exact ⟨_, .inr rfl⟩

private theorem bindingAttributes_close (h : e.IsBoundBy binding) :
    ∀ text ∈ e.bindingAttributes binding, ClosesAttribute text := by
  intro text hm
  obtain ⟨id, -, rfl⟩ | ⟨a, rfl⟩ := h.mem_bindingAttributes hm
  · exact closesAttribute_attributeText "id" id
  · obtain ⟨before, hbefore⟩ := exists_joinWith_concat " " _
      ("transition=\x7b" ++ a.motionProps.transitionJson.compact ++ "\x7d")
    refine ⟨before ++ ("transition=\x7b" ++ a.motionProps.transitionJson.compact), .inr ?_⟩
    rw [String.append_assoc, ← hbefore]
    rfl

theorem attributes_close (h : e.IsBoundBy binding) :
    ∀ text ∈ e.attributes binding, ClosesAttribute text := by
  have hclass : ∀ text ∈ e.classAttribute binding, ClosesAttribute text := by
    intro text hm
    obtain ⟨classes, -, rfl⟩ := mem_classAttribute hm
    exact closesAttribute_attributeText _ _
  unfold attributes
  simp only [List.forall_mem_append]
  exact ⟨⟨⟨hclass, List.forall_mem_singleton.mpr (closesAttribute_attributeText _ _)⟩,
    kindAttributes_close⟩, bindingAttributes_close h⟩

theorem wrap_end (h : e.IsBoundBy binding) (children : List String) :
    ∃ before closing, e.wrap binding children = before ++ closing ∧ closing ∈ elementEnds := by
  unfold wrap
  extract_lets start
  split
  · next void =>
    have hne : e.attributes binding ≠ [] := by simp [attributes]
    obtain ⟨front, last, hattributes⟩ := (List.eq_nil_or_concat _).resolve_left hne
    rw [List.concat_eq_append] at hattributes
    obtain ⟨before, hlast⟩ := attributes_close h last (hattributes ▸ by simp)
    obtain ⟨joined, hjoined⟩ := exists_joinWith_concat " " front last
    have hstart : start = "<" ++ e.tag binding ++ " " ++ joined ++ last := by
      unfold start
      rw [hattributes, hjoined, ← String.append_assoc]
    rcases hlast with rfl | rfl
    · refine ⟨"<" ++ e.tag binding ++ " " ++ joined ++ before, "\" />", ?_, by decide⟩
      rw [hstart]
      simp only [String.append_assoc]
      rfl
    · refine ⟨"<" ++ e.tag binding ++ " " ++ joined ++ before, "\x7d />", ?_, by decide⟩
      rw [hstart]
      simp only [String.append_assoc]
      rfl
  · next full =>
    have htag : ∃ before, e.tag binding = before ++ e.kind.tag := by
      unfold tag
      split
      · exact ⟨_, rfl⟩
      · exact ⟨"", String.empty_append.symm⟩
    obtain ⟨before, htag⟩ := htag
    refine ⟨start ++ ">" ++ e.body children ++ "</" ++ before, e.kind.tag ++ ">", ?_, ?_⟩
    · rw [htag]
      simp only [String.append_assoc]
    · cases hkind : e.kind <;> rw [hkind] at full <;> first | decide | exact absurd rfl full

end Element

theorem Forest.markup_eq_map (bindings : Bindings) (forest : Forest) :
    Forest.markup bindings forest = forest.map fun e => e.markup bindings := by
  induction forest with
  | nil => rw [markup, List.map_nil]
  | cons e rest ih => rw [markup, ih, List.map_cons]

end Markup

/-- The component that runs scripts, as it stands last in a main part. -/
def mountLine : List Char := "      <Animations />".toList

namespace Page

variable {p : Page} {options : PageOptions} {limit : Option Nat} {source : String}

theorem lastOfMain?_of_mounted (h : p.source ⟨tidyFormatter, limit⟩ options = .ok source)
    (hmounts : options.mounts = ["<Animations />"]) :
    lastOfMain? (p.withRouteConfig source) = some mountLine := by
  have hlines : ∃ before, codeLines (p.markupBlock options).toList =
      before ++ ["<Animations />".toList] := by
    have hmount : codeLines "<Animations />".toList = ["<Animations />".toList] := by decide
    rw [markupBlock, hmounts, codeLines_joinLines, List.flatMap_append, List.flatMap_singleton,
      hmount]
    exact ⟨_, rfl⟩
  obtain ⟨before, hlines⟩ := hlines
  have hne : p.markupBlock options ≠ "" := by
    intro hempty
    rw [hempty] at hlines
    exact List.append_ne_nil_of_right_ne_nil before (List.cons_ne_nil _ _) hlines.symm
  rw [lastOfMain?_page h, if_neg hne, hlines, List.getLast?_append]
  rfl

/-- Where nothing is mounted the main part ends in the last element, whose end is another one. -/
theorem lastOfMain?_ne_mountLine (h : p.source ⟨tidyFormatter, limit⟩ options = .ok source)
    (hmounts : options.mounts = []) : lastOfMain? (p.withRouteConfig source) ≠ some mountLine := by
  have hends : ∀ closing ∈ elementEnds, '\n' ∉ closing.toList ∧
      trimEnd closing.toList = closing.toList ∧ closing.toList ≠ [] ∧
      ¬ closing.toList <:+ mountLine := by decide
  rw [lastOfMain?_page h]
  split
  · decide
  · next hfull =>
    rcases List.eq_nil_or_concat p.layout with hnone | ⟨front, e, hlast⟩
    · refine absurd ?_ hfull
      rw [markupBlock, hmounts, hnone]
      rfl
    · rw [List.concat_eq_append] at hlast
      obtain ⟨text, closing, hwrap, hclosing⟩ := Element.wrap_end
        (Element.isBoundBy_ofAnimations options.animations options.backend e)
        (Forest.markup (Bindings.ofAnimations options.animations options.backend) e.children)
      obtain ⟨hbreak, htrim, hne, hmount⟩ := hends closing hclosing
      obtain ⟨before, last, hlines⟩ := codeLines_append_closing hbreak htrim hne text.toList
      rw [markupBlock, hmounts, codeLines_joinLines, List.append_nil, Forest.markup_eq_map, hlast,
        List.map_append, List.flatMap_append, List.map_singleton, List.flatMap_singleton,
        Element.markup_eq, hwrap, String.toList_append, hlines, ← List.append_assoc,
        List.getLast?_append]
      intro hsame
      refine hmount ?_
      rw [← Option.some.inj hsame]
      exact ⟨List.replicate 6 ' ' ++ last, by simp⟩

end Page

section Runner

def startsWith (mark : String) (line : List Char) : Bool := mark.toList.isPrefixOf line

/-- The line of a script runner that imports the script of an animation. -/
def runImport (i : Nat) (a : Animation) : String :=
  "import run" ++ toString i ++ " from './" ++ a.id ++ "';"

/-- The line of a script runner that runs a script. -/
def runCall (i : Nat) : String := "    run" ++ toString i ++ "();"

/-- A script runner that imports and calls one run for each animation, in order, and no others. -/
structure RunsEach (content : String) (animations : List Animation) : Prop where
  imports : (codeLines content.toList).filter (startsWith "import run") =
    (animations.mapIdx runImport).map String.toList
  calls : (codeLines content.toList).filter (startsWith "    run") =
    (animations.mapIdx fun i _ => runCall i).map String.toList

theorem codeLines_join_append {pieces : List String}
    (h : ∀ piece ∈ pieces, piece.toList.getLast? = some '\n') (rest : List Char) :
    codeLines ((String.join pieces).toList ++ rest) =
      (pieces.flatMap fun piece => codeLines piece.toList) ++ codeLines rest := by
  rw [String.toList_join]
  induction pieces with
  | nil => rfl
  | cons piece more ih =>
    obtain ⟨hpiece, hmore⟩ := List.forall_mem_cons.mp h
    rw [List.flatMap_cons, List.append_assoc, codeLines_append hpiece, ih hmore, List.flatMap_cons,
      List.append_assoc]

private theorem codeLines_line {piece line : List Char} (hpiece : piece = line ++ ['\n'])
    (hbreak : '\n' ∉ line) (hend : line.getLast? = some ';') : codeLines piece = [line] := by
  obtain ⟨text, rfl⟩ := List.getLast?_eq_some_iff.mp hend
  have htrim : trimEnd (text ++ [';']) = text ++ [';'] := by
    have hlast : trimEnd [';'] = [';'] := by decide
    rw [trimEnd_append, hlast]
    rfl
  rw [hpiece, codeLines_append_break, codeLines_of_break_notMem hbreak, htrim,
    if_neg (List.append_ne_nil_of_right_ne_nil text (List.cons_ne_nil _ _))]
  rfl

private theorem break_notMem_toString (i : Nat) : '\n' ∉ (toString i).toList := fun h => by
  cases IsNumeral.toString_nat i _ h

private theorem break_notMem_of_isAnimationId {id : String} (h : isAnimationId id) :
    '\n' ∉ id.toList := by
  intro hm
  have hall := List.all_eq_true.mp (Bool.and_eq_true_iff.mp h).2 '\n' hm
  cases hall

private theorem codeLines_runCall (i : Nat) :
    codeLines ("    run" ++ toString i ++ "();\n").toList = [(runCall i).toList] := by
  refine codeLines_line (by simp [runCall]) ?_ ?_
  · simp only [runCall, String.toList_append, List.mem_append, not_or]
    exact ⟨⟨by decide, break_notMem_toString i⟩, by decide⟩
  · rw [runCall, String.toList_append, List.getLast?_append]
    rfl

private theorem codeLines_runImport (i : Nat) {a : Animation} (ha : isAnimationId a.id) :
    codeLines ("import run" ++ toString i ++ " from './" ++ a.id ++ "';\n").toList =
      [(runImport i a).toList] := by
  refine codeLines_line (by simp [runImport]) ?_ ?_
  · simp only [runImport, String.toList_append, List.mem_append, not_or]
    exact ⟨⟨⟨⟨by decide, break_notMem_toString i⟩, by decide⟩, break_notMem_of_isAnimationId ha⟩,
      by decide⟩
  · rw [runImport, String.toList_append, List.getLast?_append]
    rfl

/-- Pieces of one line each, for the animations of a list. -/
private theorem codeLines_join_mapIdx {animations : List Animation}
    {piece line : Nat → Animation → String}
    (hend : ∀ i a, (piece i a).toList.getLast? = some '\n')
    (h : ∀ i, ∀ a ∈ animations, codeLines (piece i a).toList = [(line i a).toList])
    (rest : List Char) :
    codeLines ((String.join (animations.mapIdx piece)).toList ++ rest) =
      (animations.mapIdx line).map String.toList ++ codeLines rest := by
  rw [codeLines_join_append]
  · congr 1
    rw [List.mapIdx_eq_zipIdx_map, List.mapIdx_eq_zipIdx_map, List.flatMap_map, List.map_map,
      List.map_eq_flatMap]
    refine List.flatMap_congr fun entry hentry => ?_
    exact h entry.2 entry.1 (List.fst_mem_of_mem_zipIdx hentry)
  · intro text hm
    obtain ⟨i, hi, rfl⟩ := List.mem_mapIdx.mp hm
    exact hend i _

/-- The lines of a script runner. -/
private theorem codeLines_scriptRunner {animations : List Animation}
    (h : ∀ a ∈ animations, isAnimationId a.id) : codeLines (scriptRunner animations).toList =
      ["'use client';".toList, "import \x7b useEffect \x7d from 'react';".toList] ++
        ((animations.mapIdx runImport).map String.toList ++
          (["export default function Animations() \x7b".toList, "  useEffect(() => \x7b".toList] ++
            ((animations.mapIdx fun i _ => runCall i).map String.toList ++
              ["  \x7d, []);".toList, "  return null;".toList, "\x7d".toList]))) := by
  have himport (i : Nat) (a : Animation) :
      ("import run" ++ toString i ++ " from './" ++ a.id ++ "';\n").toList.getLast? =
        some '\n' := by
    rw [String.toList_append, List.getLast?_append]
    rfl
  have hcall (i : Nat) : ("    run" ++ toString i ++ "();\n").toList.getLast? = some '\n' := by
    rw [String.toList_append, List.getLast?_append]
    rfl
  unfold scriptRunner
  extract_lets imports calls
  simp only [String.toList_append, List.append_assoc]
  have hfirst : codeLines "'use client';\n\nimport \x7b useEffect \x7d from 'react';\n".toList =
      ["'use client';".toList, "import \x7b useEffect \x7d from 'react';".toList] := by decide
  have hmiddle : codeLines
      "\nexport default function Animations() \x7b\n  useEffect(() => \x7b\n".toList =
      ["export default function Animations() \x7b".toList, "  useEffect(() => \x7b".toList] := by
    decide
  have hlast : codeLines "  \x7d, []);\n\n  return null;\n\x7d\n".toList =
      ["  \x7d, []);".toList, "  return null;".toList, "\x7d".toList] := by decide
  rw [codeLines_append (by decide), hfirst, codeLines_join_mapIdx himport fun i a ha =>
    codeLines_runImport i (h a ha), codeLines_append (by decide), hmiddle,
    codeLines_join_mapIdx (fun i _ => hcall i) fun i a _ => codeLines_runCall i, hlast]

theorem scriptRunner_runsEach {animations : List Animation}
    (h : ∀ a ∈ animations, isAnimationId a.id) : RunsEach (scriptRunner animations) animations := by
  have himports : ∀ line ∈ (animations.mapIdx runImport).map String.toList,
      startsWith "import run" line ∧ ¬ startsWith "    run" line := by
    intro line hm
    obtain ⟨text, htext, rfl⟩ := List.mem_map.mp hm
    obtain ⟨i, hi, rfl⟩ := List.mem_mapIdx.mp htext
    simp [startsWith, runImport]
  have hcalls : ∀ line ∈ (animations.mapIdx fun i _ => runCall i).map String.toList,
      startsWith "    run" line ∧ ¬ startsWith "import run" line := by
    intro line hm
    obtain ⟨text, htext, rfl⟩ := List.mem_map.mp hm
    obtain ⟨i, hi, rfl⟩ := List.mem_mapIdx.mp htext
    simp [startsWith, runCall]
  constructor
  · rw [codeLines_scriptRunner h]
    simp only [List.filter_append]
    rw [List.filter_eq_self.mpr fun line hm => (himports line hm).1,
      List.filter_eq_nil_iff.mpr fun line hm => (hcalls line hm).2]
    -- None of the fixed lines imports a run.
    change [] ++ (_ ++ ([] ++ ([] ++ []))) = _
    simp only [List.nil_append, List.append_nil]
  · rw [codeLines_scriptRunner h]
    simp only [List.filter_append]
    rw [List.filter_eq_nil_iff.mpr fun line hm => (himports line hm).2,
      List.filter_eq_self.mpr fun line hm => (hcalls line hm).1]
    change [] ++ ([] ++ ([] ++ (_ ++ []))) = _
    simp only [List.nil_append, List.append_nil]

end Runner

/-- A manifest that lists a package among the dependencies. -/
def ListsPackage (content name : String) : Prop := ∃ members packages,
  content = (Json.object members).pretty ++ "\n" ∧
    members.lookup "dependencies" = some (.object packages) ∧ name ∈ packages.map Prod.fst

namespace Site

variable {s : Site} {limit : Option Nat} {files : List SourceFile} {p : Page}

theorem listsPackage_manifest {name : String} (h : name ∈ s.dependencies.map Prod.fst) :
    ListsPackage s.manifest name := by
  refine ⟨_, _, rfl, rfl, ?_⟩
  rw [List.map_map]
  exact h

/-- What the source of a page refers to, and what a project has for it. -/
structure RefersRightly (s : Site) (files : List SourceFile) (p : Page) (text : String) : Prop where
  stylesheetImport : "import \"./animations.css\";".toList ∈ importSection text ↔
    s.backend = .css ∧ s.Animates p
  stylesheet : p.directory ++ "/animations.css" ∈ files.map SourceFile.path ↔
    s.backend = .css ∧ s.Animates p
  scriptImport : "import Animations from \"./_animations\";".toList ∈ importSection text ↔
    s.backend = .script ∧ s.Animates p
  scriptMount : lastOfMain? text = some mountLine ↔
    s.backend = .script ∧ s.Animates p
  scriptRunner : p.directory ++ "/_animations/index.tsx" ∈ files.map SourceFile.path ↔
    s.backend = .script ∧ s.Animates p
  /-- A script runner runs the scripts of the page, and each of these is there. -/
  scripts : ∀ runner, fileAt? files (p.directory ++ "/_animations/index.tsx") = some runner →
    RunsEach runner.content (s.animations.filter fun a => a.elementId ∈ Forest.ids p.layout) ∧
    ∀ a ∈ s.animations, a.elementId ∈ Forest.ids p.layout →
      p.directory ++ "/_animations/" ++ a.id ++ ".ts" ∈ files.map SourceFile.path
  motionImport : "import \x7b motion \x7d from \"framer-motion\";".toList ∈ importSection text ↔
    s.backend = .motion ∧ s.Animates p

private theorem mem_importLines :
    ("import \"./animations.css\";" ∈ p.importLines (s.pageOptions p) ↔
      s.backend = .css ∧ s.animationsFor p ≠ []) ∧
    ("import Animations from \"./_animations\";" ∈ p.importLines (s.pageOptions p) ↔
      s.backend = .script ∧ s.animationsFor p ≠ []) ∧
    ("import \x7b motion \x7d from \"framer-motion\";" ∈ p.importLines (s.pageOptions p) ↔
      s.backend = .motion ∧ s.animationsFor p ≠ []) := by
  unfold Page.importLines pageOptions PageOptions.ofAnimations
  by_cases hnone : s.animationsFor p = []
  · cases s.backend <;> simp [hnone]
  · cases s.backend <;> simp [hnone, stylesheetName, scriptFolder]

private theorem pageOptions_imports : ∀ line ∈ (s.pageOptions p).imports,
    codeLines line.toList = [line.toList] ∧ startsImport line.toList := by
  have hstylesheet : codeLines "import \"./animations.css\";".toList =
      ["import \"./animations.css\";".toList] ∧
        startsImport "import \"./animations.css\";".toList := by decide
  have hscripts : codeLines "import Animations from \"./_animations\";".toList =
      ["import Animations from \"./_animations\";".toList] ∧
        startsImport "import Animations from \"./_animations\";".toList := by decide
  unfold pageOptions PageOptions.ofAnimations
  by_cases hnone : s.animationsFor p = []
  · simp [hnone]
  · simp only [if_neg hnone]
    cases s.backend with
    | css => exact List.forall_mem_singleton.mpr hstylesheet
    | script => exact List.forall_mem_singleton.mpr hscripts
    | motion => nofun

private theorem lastOfMain?_iff {source : String}
    (h : p.source ⟨tidyFormatter, limit⟩ (s.pageOptions p) = .ok source) :
    lastOfMain? (p.withRouteConfig source) = some mountLine ↔
      s.backend = .script ∧ s.animationsFor p ≠ [] := by
  have hmounts : (s.pageOptions p).mounts =
      if s.backend = .script ∧ s.animationsFor p ≠ [] then ["<Animations />"] else [] := by
    unfold pageOptions PageOptions.ofAnimations
    by_cases hnone : s.animationsFor p = []
    · simp [hnone]
    · cases s.backend <;> simp [hnone]
  by_cases hruns : s.backend = .script ∧ s.animationsFor p ≠ []
  · rw [if_pos hruns] at hmounts
    exact iff_of_true (Page.lastOfMain?_of_mounted h hmounts) hruns
  · rw [if_neg hruns] at hmounts
    exact iff_of_false (Page.lastOfMain?_ne_mountLine h hmounts) hruns

/-- The names under which a page has its animations. -/
private theorem mem_fileNames_iff {name : String} (hpage : name ≠ "page.tsx")
    (hlayout : name ≠ "layout.tsx") :
    name ∈ s.fileNames p ↔ name ∈ animationFileNames (s.animationsFor p) s.backend := by
  unfold fileNames
  rw [List.mem_append, List.mem_cons]
  refine or_iff_right ?_
  rintro (h | h)
  · exact hpage h
  · split at h
    · exact hlayout (List.mem_singleton.mp h)
    · cases h

private theorem script_ne {rest name : String} {c : Char} (hname : name.toList.head? = some c)
    (hc : c ≠ '_') : scriptFolder ++ rest ≠ name := by
  rintro rfl
  simp [scriptFolder, String.toList_append] at hname
  exact hc hname.symm

private theorem script_mem_paths_iff {formatting : Formatting}
    (h : s.project formatting = .ok files) (hp : p ∈ s.pages) (rest : String) :
    p.directory ++ "/" ++ (scriptFolder ++ rest) ∈ files.map SourceFile.path ↔
      scriptFolder ++ rest ∈ animationFileNames (s.animationsFor p) s.backend := by
  rw [mem_paths_iff h hp (noPageFolder_scriptFolder rest), mem_fileNames_iff]
  · exact script_ne rfl (by decide)
  · exact script_ne rfl (by decide)

private theorem script_path (p : Page) (rest : String) : p.directory ++ "/_animations/" ++ rest =
    p.directory ++ "/" ++ (scriptFolder ++ ("/" ++ rest)) := by
  apply String.toList_injective
  simp [scriptFolder]

private theorem runner_path (p : Page) : p.directory ++ "/_animations/index.tsx" =
    p.directory ++ "/" ++ (scriptFolder ++ "/index.tsx") := by
  rw [String.append_assoc]
  rfl

private theorem stylesheet_mem_paths_iff {formatting : Formatting}
    (h : s.project formatting = .ok files) (hp : p ∈ s.pages) :
    p.directory ++ "/animations.css" ∈ files.map SourceFile.path ↔
      s.backend = .css ∧ s.animationsFor p ≠ [] := by
  have hpath : p.directory ++ "/animations.css" = p.directory ++ "/" ++ stylesheetName := by
    rw [String.append_assoc]
    rfl
  rw [hpath, mem_paths_iff h hp noPageFolder_stylesheetName,
    mem_fileNames_iff (by decide) (by decide), mem_animationFileNames_iff]
  constructor
  · rintro ⟨hne, ⟨hcss, -⟩ | ⟨-, ⟨a, -, hname⟩ | hname⟩⟩
    · exact ⟨hcss, hne⟩
    · exact absurd hname (stylesheetName_ne_script _)
    · exact absurd hname (stylesheetName_ne_script "/index.tsx")
  · rintro ⟨hcss, hne⟩
    exact ⟨hne, .inl ⟨hcss, rfl⟩⟩

private theorem runner_mem_paths_iff {formatting : Formatting}
    (h : s.project formatting = .ok files) (hp : p ∈ s.pages) :
    p.directory ++ "/_animations/index.tsx" ∈ files.map SourceFile.path ↔
      s.backend = .script ∧ s.animationsFor p ≠ [] := by
  rw [runner_path, script_mem_paths_iff h hp, mem_animationFileNames_iff]
  constructor
  · rintro ⟨hne, ⟨-, hname⟩ | ⟨hbackend, -⟩⟩
    · exact absurd hname.symm (stylesheetName_ne_script "/index.tsx")
    · exact ⟨hbackend, hne⟩
  · rintro ⟨hbackend, hne⟩
    exact ⟨hne, .inr ⟨hbackend, .inr rfl⟩⟩

private theorem runner_content {formatting : Formatting} {runner : SourceFile}
    (h : s.project formatting = .ok files) (hp : p ∈ s.pages)
    (hfound : fileAt? files (p.directory ++ "/_animations/index.tsx") = some runner) :
    s.backend = .script ∧ s.animationsFor p ≠ [] ∧
      runner.content = scriptRunner (s.animationsFor p) := by
  obtain ⟨part, hpart⟩ := exists_pageFiles h hp
  rw [runner_path] at hfound
  obtain ⟨hm, hpath⟩ := fileAt?_eq_some hfound
  have hm := mem_pageFiles_of_path h hp hpart (noPageFolder_scriptFolder "/index.tsx") hm hpath
  have hm := mem_animationFiles_of_path hpart hm hpath (by decide) (by decide)
  obtain ⟨hne, ⟨-, rfl⟩ | ⟨hbackend, ⟨a, -, rfl⟩ | rfl⟩⟩ := mem_animationFiles_iff.mp hm
  · exact absurd (p.directory_append_injective hpath) (stylesheetName_ne_script "/index.tsx")
  · rw [scriptFile_path] at hpath
    exact absurd (p.directory_append_injective hpath) (script_ne_runner a.id)
  · exact ⟨hbackend, hne, rfl⟩

variable {source : String}

/-- Whatever the page and its animations are, what its source refers to is there. -/
theorem refersRightly (h : s.project ⟨tidyFormatter, limit⟩ = .ok files) (hp : p ∈ s.pages)
    (hsource : p.source ⟨tidyFormatter, limit⟩ (s.pageOptions p) = .ok source) :
    s.RefersRightly files p (p.withRouteConfig source) := by
  have hline (line : String) : line.toList ∈ importSection (p.withRouteConfig source) ↔
      line ∈ p.importLines (s.pageOptions p) :=
    Page.mem_importSection_page hsource pageOptions_imports
  obtain ⟨hstylesheet, hscripts, hmotion⟩ := mem_importLines (s := s) (p := p)
  have hids : ∀ a ∈ s.animationsFor p, isAnimationId a.id := fun a ha =>
    (project_eq_ok_iff.mp h).1.2 a (List.mem_of_mem_filter ha)
  constructor
  case stylesheetImport => rw [hline, hstylesheet, animationsFor_ne_nil_iff]
  case scriptImport => rw [hline, hscripts, animationsFor_ne_nil_iff]
  case motionImport => rw [hline, hmotion, animationsFor_ne_nil_iff]
  case scriptMount => rw [lastOfMain?_iff hsource, animationsFor_ne_nil_iff]
  case stylesheet => rw [stylesheet_mem_paths_iff h hp, animationsFor_ne_nil_iff]
  case scriptRunner => rw [runner_mem_paths_iff h hp, animationsFor_ne_nil_iff]
  case scripts =>
    intro runner hfound
    obtain ⟨hbackend, hne, hcontent⟩ := runner_content h hp hfound
    rw [hcontent, ← animationsFor_eq]
    refine ⟨scriptRunner_runsEach hids, fun a ha helement => ?_⟩
    have hmem : a ∈ s.animationsFor p := by
      rw [animationsFor_eq]
      exact List.mem_filter.mpr ⟨ha, decide_eq_true helement⟩
    have hname : p.directory ++ "/_animations/" ++ a.id ++ ".ts" =
        p.directory ++ "/" ++ (scriptFolder ++ ("/" ++ (a.id ++ ".ts"))) := by
      rw [String.append_assoc, script_path]
    rw [hname, script_mem_paths_iff h hp]
    exact mem_animationFileNames_iff.mpr ⟨hne, .inr ⟨hbackend, .inl ⟨a, hmem, rfl⟩⟩⟩

private theorem fileAt?_page (h : s.project ⟨tidyFormatter, limit⟩ = .ok files)
    (hp : p ∈ s.pages) : ∃ page, fileAt? files (p.directory ++ "/page.tsx") = some page ∧
      s.RefersRightly files p page.content := by
  have hpath : p.directory ++ "/page.tsx" = p.directory ++ "/" ++ "page.tsx" := by
    rw [String.append_assoc]
    rfl
  obtain ⟨part, hpart⟩ := exists_pageFiles h hp
  obtain ⟨page, hfound⟩ := exists_fileAt?
    ((mem_paths_iff h hp noPageFolder_page).mpr List.mem_cons_self)
  obtain ⟨hm, hname⟩ := fileAt?_eq_some hfound
  have hm := mem_pageFiles_of_path h hp hpart noPageFolder_page hm hname
  obtain ⟨source, hsource, rfl⟩ := pageFile_eq_ok_iff.mp (pageFile_of_path hpart hm hname)
  rw [hpath]
  exact ⟨_, hfound, refersRightly h hp hsource⟩

private theorem fileAt?_manifest {formatting : Formatting}
    (h : s.project formatting = .ok files) :
    fileAt? files "package.json" = some ⟨"package.json", s.manifest⟩ := by
  have hpaths : "package.json" ∈ files.map SourceFile.path := by
    rw [project_paths h]
    exact List.mem_append_right _ List.mem_cons_self
  obtain ⟨file, hfile⟩ := exists_fileAt? hpaths
  obtain ⟨hm, hpath⟩ := fileAt?_eq_some hfile
  rcases (mem_project_iff h).mp hm with ⟨p, hp, part, hpart, hm⟩ | rfl
  · have hm := List.mem_map_of_mem (f := SourceFile.path) hm
    rw [pageFiles_paths hpart] at hm
    obtain ⟨name, -, hname⟩ := List.mem_map.mp hm
    exact absurd (hname.trans hpath) (p.directory_append_ne_manifest name)
  · exact hfile

/-- Imports, mounts, files and the manifest of a project agree: what the source of a page refers to
is in the project, and what is in the project is referred to. -/
theorem references_closed (h : s.project ⟨tidyFormatter, limit⟩ = .ok files) :
    (∀ p ∈ s.pages, ∃ page, fileAt? files (p.directory ++ "/page.tsx") = some page ∧
      s.RefersRightly files p page.content) ∧
    ∃ manifest, fileAt? files "package.json" = some manifest ∧
      ((∃ p ∈ s.pages, ∃ page, fileAt? files (p.directory ++ "/page.tsx") = some page ∧
        "import \x7b motion \x7d from \"framer-motion\";".toList ∈ importSection page.content) →
          ListsPackage manifest.content "framer-motion") ∧
      ((∃ p ∈ s.pages, ∃ name, p.directory ++ "/_animations/" ++ name ∈ files.map SourceFile.path) →
          ListsPackage manifest.content "gsap") := by
  have hused {p : Page} : s.Animates p → s.animations ≠ [] := fun ⟨_, ha, _⟩ =>
    List.ne_nil_of_mem ha
  refine ⟨fun p hp => fileAt?_page h hp, ⟨"package.json", s.manifest⟩, fileAt?_manifest h, ?_, ?_⟩
  · rintro ⟨p, hp, page, hfound, himport⟩
    obtain ⟨_, hsame, hright⟩ := fileAt?_page h hp
    obtain rfl := Option.some.inj (hfound.symm.trans hsame)
    obtain ⟨hbackend, hanimates⟩ := hright.motionImport.mp himport
    refine listsPackage_manifest ?_
    simp [dependencies, animationPackages, hused hanimates, hbackend]
  · rintro ⟨p, hp, name, hm⟩
    rw [script_path, script_mem_paths_iff h hp, mem_animationFileNames_iff] at hm
    obtain ⟨hne, ⟨-, hname⟩ | ⟨hbackend, -⟩⟩ := hm
    · exact absurd hname.symm (stylesheetName_ne_script _)
    · refine listsPackage_manifest ?_
      simp [dependencies, animationPackages, hused (animationsFor_ne_nil_iff.mp hne), hbackend]

/-- Two scripts are imported and run in order. -/
theorem references_closed_on_duet : ∃ files,
    (duet .script "fade" "slide").project .builtIn = .ok files ∧
      ∃ runner, fileAt? files "app/home/_animations/index.tsx" = some runner ∧
        (codeLines runner.content.toList).filter (startsWith "import run") =
          ["import run0 from './fade';".toList, "import run1 from './slide';".toList] ∧
        (codeLines runner.content.toList).filter (startsWith "    run") =
          ["    run0();".toList, "    run1();".toList] := by
  obtain ⟨files, h⟩ := duet_project .script "fade" "slide" nofun rfl rfl
  obtain ⟨page, -, hright⟩ := (references_closed h).1 _ List.mem_cons_self
  obtain ⟨runner, hrunner⟩ :=
    exists_fileAt? (hright.scriptRunner.mpr ⟨rfl, _, List.mem_cons_self, by decide⟩)
  obtain ⟨hruns, -⟩ := hright.scripts runner hrunner
  exact ⟨files, h, runner, hrunner, hruns.imports, hruns.calls⟩

end Site

end Pagewright
