import Pagewright.Animation.Script
import Pagewright.Proofs.Literal.Strings
import Pagewright.Proofs.Source.Reflow

/-!
String literals of scripts. Values, easings and element ids are put between quotation marks as they
are, and so a literal denotes what it was written for exactly when that text needs no escape.
-/

namespace Pagewright

/-- A text that stands in a string literal as it is. -/
def IsPlainText (mark : Char) (text : String) : Prop :=
  ∀ c ∈ text.toList, c ≠ mark ∧ c ≠ '\\' ∧ c ≠ '\n' ∧ c ≠ '\r'

instance (mark : Char) (text : String) : Decidable (IsPlainText mark text) :=
  List.decidableBAll _ text.toList

theorem isPlainText_append {mark : Char} {a b : String} :
    IsPlainText mark (a ++ b) ↔ IsPlainText mark a ∧ IsPlainText mark b := by
  unfold IsPlainText
  rw [String.toList_append, List.forall_mem_append]

namespace Literal

open StringMode

/-- Behind its opening mark, a literal holds a text up to the mark after it exactly when the text
needs no escape. An escape would take more characters than it denotes. -/
theorem readString?_self_iff {mark : Char} (hmark : mark ≠ '\\') (text rest : List Char) :
    readString? mark plain (text ++ mark :: rest) = some (text, rest) ↔
      ∀ c ∈ text, c ≠ mark ∧ c ≠ '\\' ∧ c ≠ '\n' ∧ c ≠ '\r' := by
  induction text with
  | nil => exact iff_of_true (readString?_end rest) nofun
  | cons c text ih =>
    rw [List.forall_mem_cons, List.cons_append]
    by_cases hend : c = mark
    · refine iff_of_false (fun h => ?_) fun h => h.1.1 hend
      rw [hend, readString?_end] at h
      cases h
    by_cases hescape : c = '\\'
    · refine iff_of_false (fun h => ?_) fun h => h.1.2.1 hescape
      subst hescape
      rw [readString?_step rfl fun _ => hmark.symm] at h
      obtain ⟨⟨read, after⟩, hread, hpair⟩ := Option.map_eq_some_iff.mp h
      obtain ⟨rfl, rfl⟩ := Prod.mk.inj hpair
      have hlength := readString?_length _ hread
      simp at hlength
      omega
    by_cases hline : c = '\n' ∨ c = '\r'
    · refine iff_of_false (fun h => ?_) fun h => hline.elim h.1.2.2.1 h.1.2.2.2
      rw [readString?_line_end hend hline] at h
      cases h
    · obtain ⟨hfeed, hreturn⟩ := not_or.mp hline
      rw [readString?_plain hend hescape hfeed hreturn, ← ih, Option.map_eq_some_iff]
      constructor
      · rintro ⟨⟨read, after⟩, hread, hpair⟩
        obtain ⟨hread', rfl⟩ := Prod.mk.inj hpair
        rw [(List.cons.inj hread').2] at hread
        exact ⟨⟨hend, hescape, hfeed, hreturn⟩, hread⟩
      · rintro ⟨-, hread⟩
        exact ⟨_, hread, rfl⟩

end Literal

/-- A stretch of a script: code, or a string literal and the text that it is written for. -/
inductive ScriptPiece where
  | code (text : String)
  | literal (mark : Char) (value : String)

namespace ScriptPiece

def text : ScriptPiece → List Char
  | code text => text.toList
  | literal mark value => mark :: (value.toList ++ [mark])

def assemble (pieces : List ScriptPiece) : List Char := pieces.flatMap text

/-- What the literals are written for, in order. -/
def quotations (pieces : List ScriptPiece) : List (Char × String) :=
  pieces.filterMap fun
    | code _ => none
    | literal mark value => some (mark, value)

/-- Every literal, read where it stands, ends at its own closing mark and denotes its value. -/
def ReadFaithfully : List ScriptPiece → Prop
  | [] => True
  | code _ :: rest => ReadFaithfully rest
  | literal mark value :: rest =>
    Literal.readString? mark .plain (value.toList ++ mark :: assemble rest) =
      some (value.toList, assemble rest) ∧ ReadFaithfully rest

/-- A text with two spaces before every line that is not empty. The flag tells whether a line begins
where the text does. -/
def moveRight : Bool → List Char → List Char
  | _, [] => []
  | _, '\n' :: rest => '\n' :: moveRight true rest
  | _, '\r' :: '\n' :: rest => '\n' :: moveRight true rest
  | begins, c :: rest => (if begins then "  ".toList else []) ++ c :: moveRight false rest

/-- Whether a line begins behind a text. -/
def beginsAfter (begins : Bool) (text : List Char) : Bool := text.getLast?.elim begins (· = '\n')

/-- Moves code to the right and leaves literals as they are. -/
def moveAll : Bool → List ScriptPiece → List ScriptPiece
  | _, [] => []
  | begins, code text :: rest =>
    code (String.ofList (moveRight begins text.toList)) ::
      moveAll (beginsAfter begins text.toList) rest
  | begins, literal mark value :: rest =>
    code (if begins then "  " else "") :: literal mark value :: moveAll false rest

section Pieces

variable {pieces : List ScriptPiece}

@[simp] theorem assemble_nil : assemble [] = [] := rfl

@[simp] theorem assemble_append (pieces more : List ScriptPiece) :
    assemble (pieces ++ more) = assemble pieces ++ assemble more := List.flatMap_append

@[simp] theorem quotations_append (pieces more : List ScriptPiece) :
    quotations (pieces ++ more) = quotations pieces ++ quotations more := List.filterMap_append

@[simp] theorem assemble_code (text : String) (rest : List ScriptPiece) :
    assemble (code text :: rest) = text.toList ++ assemble rest := rfl

@[simp] theorem assemble_literal (mark : Char) (value : String) (rest : List ScriptPiece) :
    assemble (literal mark value :: rest) = mark :: (value.toList ++ mark :: assemble rest) := by
  simp [assemble, text]

@[simp] theorem quotations_code (text : String) (rest : List ScriptPiece) :
    quotations (code text :: rest) = quotations rest := rfl

@[simp] theorem quotations_literal (mark : Char) (value : String) (rest : List ScriptPiece) :
    quotations (literal mark value :: rest) = (mark, value) :: quotations rest := rfl

/-- Literals are read faithfully exactly when none of them needs an escape. -/
theorem readFaithfully_iff (hmarks : ∀ entry ∈ quotations pieces, entry.1 ≠ '\\') :
    ReadFaithfully pieces ↔ ∀ entry ∈ quotations pieces, IsPlainText entry.1 entry.2 := by
  induction pieces with
  | nil => exact iff_of_true trivial nofun
  | cons piece rest ih =>
    cases piece with
    | code text => exact ih hmarks
    | literal mark value =>
      obtain ⟨hmark, hrest⟩ := List.forall_mem_cons.mp hmarks
      rw [ReadFaithfully, Literal.readString?_self_iff hmark, ih hrest, quotations_literal,
        List.forall_mem_cons]
      rfl

end Pieces

section Indentation

theorem beginsAfter_cons (begins : Bool) (c : Char) (text : List Char) :
    beginsAfter begins (c :: text) = beginsAfter (c = '\n') text := by
  rw [beginsAfter, beginsAfter, List.getLast?_cons]
  cases text.getLast? <;> rfl

private theorem getLast?_cons_of_eq {c d : Char} {text : List Char} (h : text.getLast? = some d) :
    (c :: text).getLast? = some d := by
  rw [List.getLast?_cons, h]
  rfl

/-- Moving a text goes on behind a part of it that leaves no line ending unfinished. -/
theorem moveRight_append {text : List Char} (h : text.getLast? ≠ some '\r') (begins : Bool)
    (rest : List Char) : moveRight begins (text ++ rest) =
      moveRight begins text ++ moveRight (beginsAfter begins text) rest := by
  induction begins, text using moveRight.induct with
  | case1 begins => rfl
  | case2 begins text ih =>
    rw [List.cons_append, moveRight, moveRight, beginsAfter_cons, ih (mt getLast?_cons_of_eq h)]
    rfl
  | case3 begins text ih =>
    have htext := mt getLast?_cons_of_eq (mt getLast?_cons_of_eq h)
    rw [List.cons_append, List.cons_append, moveRight, moveRight, beginsAfter_cons,
      beginsAfter_cons, ih htext]
    rfl
  | case4 begins c text hbreak hreturn ih =>
    -- Only a carriage return at the very end could still become part of a line ending.
    have hreturn' (tail : List Char) : c = '\r' → text ++ rest = '\n' :: tail → False := by
      rintro rfl heq
      cases text with
      | nil => exact h rfl
      | cons next text => exact hreturn text rfl (by rw [(List.cons.inj heq).1])
    rw [List.cons_append, moveRight.eq_4 begins c _ hbreak hreturn',
      moveRight.eq_4 begins c text hbreak hreturn, beginsAfter_cons,
      ih (mt getLast?_cons_of_eq h), decide_eq_false hbreak, List.append_assoc, List.cons_append]

theorem moveRight_of_notMem {text : List Char} (h : '\n' ∉ text) : moveRight false text = text := by
  induction text with
  | nil => rfl
  | cons c text ih =>
    obtain ⟨hc, htext⟩ := not_or.mp (mt List.mem_cons.mpr h)
    have hreturn (tail : List Char) : c = '\r' → text = '\n' :: tail → False := by
      rintro - rfl
      exact htext List.mem_cons_self
    rw [moveRight.eq_4 false c text (fun e => hc e.symm) hreturn, ih htext]
    rfl

private def indented (line : List Char) : List Char := (indentLine (String.ofList line)).toList

private theorem indented_cons (c : Char) (line : List Char) :
    indented (c :: line) = "  ".toList ++ c :: line := by
  have hne : String.ofList (c :: line) ≠ "" := by simp
  have htext : (String.ofList (c :: line)).toList = c :: line := String.toList_ofList
  rw [indented, indentLine, if_neg hne, String.toList_append, htext]

/-- Indenting the lines of a text moves them to the right. -/
theorem moveRight_eq {text : List Char} (h : ∀ c, text.getLast? = some c → c = '\n') :
    moveRight true text = unlines ((lines text).map indented) ∧
      (text ≠ [] → moveRight false text = reflow indented text) := by
  induction text using lines.induct with
  | case1 => exact ⟨rfl, fun hne => absurd rfl hne⟩
  | case2 rest ih =>
    have hrest := (ih fun c hc => h c (getLast?_cons_of_eq hc)).1
    rw [moveRight, moveRight, reflow, lines, hrest]
    exact ⟨rfl, fun _ => rfl⟩
  | case3 rest ih =>
    have hrest := (ih fun c hc => h c (getLast?_cons_of_eq (getLast?_cons_of_eq hc))).1
    rw [moveRight, moveRight, reflow, lines, hrest]
    exact ⟨rfl, fun _ => rfl⟩
  | case4 c rest hbreak hreturn hrest =>
    obtain rfl := lines_eq_nil hrest
    exact absurd (h c rfl) hbreak
  | case5 c rest hbreak hreturn first more hrest ih =>
    have hne : rest ≠ [] := by
      rintro rfl
      cases hrest
    have hmoved := (ih fun c hc => h c (getLast?_cons_of_eq hc)).2 hne
    rw [reflow, hrest] at hmoved
    rw [moveRight.eq_4 _ c rest hbreak hreturn, moveRight.eq_4 _ c rest hbreak hreturn, hmoved,
      reflow, lines.eq_4 c rest hbreak hreturn, hrest]
    refine ⟨?_, fun _ => rfl⟩
    rw [List.map_cons, unlines_cons, indented_cons]
    rfl

theorem toList_indentBlock {text : String} (h : text.toList.getLast? = some '\n') :
    (indentBlock text).toList ++ ['\n'] = moveRight true text.toList := by
  rw [(moveRight_eq fun c hc => Option.some_inj.mp (hc.symm.trans h)).1, indentBlock, linesOf,
    List.map_map]
  cases hlines : lines text.toList with
  | nil =>
    rw [lines_eq_nil hlines] at h
    cases h
  | cons first rest =>
    rw [List.map_cons, toList_joinLines_break, List.map_cons, List.map_cons, List.map_map]
    rfl

/-- Code that leaves no line ending unfinished, or a literal that stays on its line. -/
def KeepsLines : ScriptPiece → Prop
  | code text => text.toList.getLast? ≠ some '\r'
  | literal mark value => mark ≠ '\n' ∧ mark ≠ '\r' ∧ '\n' ∉ value.toList

private theorem moveRight_literal {mark : Char} {value : List Char} (hfeed : mark ≠ '\n')
    (hreturn : mark ≠ '\r') (hvalue : '\n' ∉ value) (begins : Bool) (rest : List Char) :
    moveRight begins (mark :: (value ++ mark :: rest)) =
      (if begins then "  ".toList else []) ++ mark :: (value ++ mark :: moveRight false rest) := by
  have hlast : (value ++ [mark]).getLast? = some mark := by simp
  have hmem : '\n' ∉ value ++ [mark] := by simp [hvalue, hfeed.symm]
  have htext : value ++ mark :: rest = (value ++ [mark]) ++ rest := by simp
  have hlastReturn : (value ++ [mark]).getLast? ≠ some '\r' := by simpa [hlast] using hreturn
  rw [moveRight.eq_4 begins mark _ hfeed fun _ e _ => hreturn e, htext,
    moveRight_append hlastReturn, moveRight_of_notMem hmem, beginsAfter, hlast]
  simp [hfeed]

theorem keepsLines_of_getLast? {text ending : String} {c : Char}
    (h : ending.toList.getLast? = some c) (hc : c ≠ '\r') : (code (text ++ ending)).KeepsLines := by
  rw [KeepsLines, String.toList_append, List.getLast?_append, h]
  simpa using hc

theorem assemble_moveAll {pieces : List ScriptPiece} (h : ∀ piece ∈ pieces, piece.KeepsLines)
    (begins : Bool) : assemble (moveAll begins pieces) = moveRight begins (assemble pieces) := by
  induction pieces generalizing begins with
  | nil => rfl
  | cons piece rest ih =>
    obtain ⟨hpiece, hrest⟩ := List.forall_mem_cons.mp h
    cases piece with
    | code text =>
      rw [moveAll, assemble_code, assemble_code, String.toList_ofList, ih hrest,
        moveRight_append hpiece]
    | literal mark value =>
      obtain ⟨hfeed, hreturn, hvalue⟩ := hpiece
      rw [moveAll, assemble_code, assemble_literal, assemble_literal, ih hrest,
        moveRight_literal hfeed hreturn hvalue]
      split <;> rfl

theorem quotations_moveAll (begins : Bool) (pieces : List ScriptPiece) :
    quotations (moveAll begins pieces) = quotations pieces := by
  induction pieces generalizing begins with
  | nil => rfl
  | cons piece rest ih =>
    cases piece with
    | code text => exact ih _
    | literal mark value =>
      rw [moveAll, quotations_code, quotations_literal, quotations_literal, ih]

end Indentation

end ScriptPiece

namespace ScriptStep

/-- The texts that a step puts between quotation marks. -/
def quotedTexts (s : ScriptStep) : List String := s.values.entries.map Prod.snd ++ [s.ease]

def pieces (s : ScriptStep) : List ScriptPiece :=
  [.code "\n  .to(element, \x7b\n    "] ++
    (s.values.entries.flatMap fun (key, value) =>
      [.code (key ++ ": "), .literal '"' value, .code ",\n    "]) ++
    [.code ("duration: " ++ s.duration.plainText ++ ",\n    " ++ "delay: " ++ s.delay.plainText ++
      ",\n    " ++ "ease: "), .literal '"' s.ease, .code "\n  \x7d)"]

end ScriptStep

namespace Animation

def scriptPieces (a : Animation) : List ScriptPiece :=
  [.code ("const timeline = gsap.timeline(\x7b\n  paused: true" ++
      (if a.trigger = .hover then ",\n  repeat: 0" else "") ++ "\n\x7d)")] ++
    a.scriptSteps.flatMap ScriptStep.pieces ++ [.code (";\n\n" ++ a.trigger.wiring ++ "\n")]

/-- What the script looks its element up by. -/
def selector (a : Animation) : String := "#" ++ elementName a.elementId

/-- The module around the code of a script, up to the selector. -/
def moduleOpening (a : Animation) : String :=
  a.scriptImports ++ "\nexport default function runAnimation() \x7b\n  " ++
    "const element = document.querySelector("

/-- What follows the selector, up to the code. -/
def moduleGuard : String := ");" ++ "\n  if (!element) return;\n\n"

def modulePieces (a : Animation) : List ScriptPiece :=
  [.code a.moduleOpening, .literal '\'' a.selector, .code moduleGuard] ++
    ScriptPiece.moveAll true a.scriptPieces ++ [.code "\x7d\n"]

end Animation

namespace ScriptStep

open ScriptPiece

/-- The fields of a step, each behind the one before it. -/
private theorem assemble_fields (timing : List String) (htiming : timing ≠ [])
    (entries : List (String × String)) :
    assemble (entries.flatMap fun (key, value) =>
        [.code (key ++ ": "), .literal '"' value, .code ",\n    "]) ++
        (joinWith ",\n    " timing).toList =
      (joinWith ",\n    "
        ((entries.map fun (key, value) => key ++ ": \"" ++ value ++ "\"") ++ timing)).toList := by
  have hmark : ": \"".toList = ": ".toList ++ ['"'] := rfl
  have hclose : "\"".toList = ['"'] := rfl
  induction entries with
  | nil => rfl
  | cons entry entries ih =>
    have hne := List.append_ne_nil_of_right_ne_nil
      (entries.map fun (key, value) => key ++ ": \"" ++ value ++ "\"") htiming
    rw [List.map_cons, List.cons_append, joinWith_cons _ _ hne, String.toList_append, ← ih,
      List.flatMap_cons, assemble_append]
    simp only [assemble_code, assemble_literal, assemble_nil, String.toList_append, hmark, hclose,
      List.append_assoc, List.cons_append, List.nil_append]

theorem assemble_pieces (s : ScriptStep) : assemble s.pieces = s.text.toList := by
  have hmark : "ease: \"".toList = "ease: ".toList ++ ['"'] := rfl
  have hclose : "\"".toList = ['"'] := rfl
  unfold ScriptStep.text fields
  rw [String.toList_append, String.toList_append, ← assemble_fields _ (List.cons_ne_nil _ _)]
  simp only [pieces, joinWith, assemble_append, assemble_code, assemble_literal,
    String.toList_append, hmark, hclose, List.append_assoc]
  rfl

theorem pieces_keepLines {s : ScriptStep} (h : ∀ text ∈ s.quotedTexts, IsPlainText '"' text) :
    ∀ piece ∈ s.pieces, piece.KeepsLines := by
  have hliteral {text : String} (htext : text ∈ s.quotedTexts) :
      (ScriptPiece.literal '"' text).KeepsLines :=
    ⟨by decide, by decide, fun hbreak => (h text htext _ hbreak).2.2.1 rfl⟩
  have hcode {text : String} (htext : text.toList.getLast? ≠ some '\r') :
      (ScriptPiece.code text).KeepsLines := htext
  intro piece hpiece
  simp only [pieces, List.mem_append, List.mem_flatMap, List.mem_cons, List.not_mem_nil,
    or_false] at hpiece
  rcases hpiece with (rfl | ⟨⟨key, value⟩, hentry, rfl | rfl | rfl⟩) | rfl | rfl | rfl
  · exact hcode (by decide)
  · exact keepsLines_of_getLast? rfl (by decide)
  · exact hliteral (List.mem_append_left _ (List.mem_map_of_mem hentry))
  · exact hcode (by decide)
  · exact keepsLines_of_getLast? rfl (by decide)
  · exact hliteral (List.mem_append_right _ List.mem_cons_self)
  · exact hcode (by decide)

theorem quotations_pieces (s : ScriptStep) :
    quotations s.pieces = s.quotedTexts.map ('"', ·) := by
  have hvalues (entries : List (String × String)) :
      quotations (entries.flatMap fun (key, value) =>
        [.code (key ++ ": "), .literal '"' value, .code ",\n    "]) =
      (entries.map Prod.snd).map ('"', ·) := by
    induction entries with
    | nil => rfl
    | cons entry entries ih =>
      rw [List.flatMap_cons, quotations_append, ih]
      rfl
  rw [pieces, quotations_append, quotations_append, hvalues, quotedTexts, List.map_append]
  rfl

end ScriptStep

namespace Animation

open ScriptPiece

theorem assemble_scriptPieces (a : Animation) :
    assemble a.scriptPieces = (a.scriptCode a.scriptSteps).toList := by
  have hsteps (steps : List ScriptStep) : assemble (steps.flatMap ScriptStep.pieces) =
      (String.join (steps.map ScriptStep.text)).toList := by
    rw [String.toList_join, List.flatMap_map]
    induction steps with
    | nil => rfl
    | cons s steps ih =>
      rw [List.flatMap_cons, List.flatMap_cons, assemble_append, ScriptStep.assemble_pieces, ih]
  unfold scriptCode
  simp only [scriptPieces, assemble_append, assemble_code, hsteps, String.toList_append,
    List.append_assoc]
  rfl

theorem quotations_scriptPieces (a : Animation) :
    quotations a.scriptPieces = (a.scriptSteps.flatMap ScriptStep.quotedTexts).map ('"', ·) := by
  have hsteps (steps : List ScriptStep) : quotations (steps.flatMap ScriptStep.pieces) =
      (steps.flatMap ScriptStep.quotedTexts).map ('"', ·) := by
    induction steps with
    | nil => rfl
    | cons s steps ih =>
      rw [List.flatMap_cons, List.flatMap_cons, quotations_append, ScriptStep.quotations_pieces, ih,
        List.map_append]
  rw [scriptPieces, quotations_append, quotations_append, hsteps]
  exact List.append_nil _

/-- Without literals over several lines, a script is moved to the right by moving its code. -/
theorem scriptPieces_keepLines {a : Animation}
    (h : ∀ s ∈ a.scriptSteps, ∀ text ∈ s.quotedTexts, IsPlainText '"' text) :
    ∀ piece ∈ a.scriptPieces, piece.KeepsLines := by
  intro piece hpiece
  simp only [scriptPieces, List.mem_append, List.mem_flatMap, List.mem_singleton] at hpiece
  rcases hpiece with (rfl | ⟨s, hs, hpiece⟩) | rfl
  · exact keepsLines_of_getLast? rfl (by decide)
  · exact ScriptStep.pieces_keepLines (h s hs) piece hpiece
  · exact keepsLines_of_getLast? rfl (by decide)

/-- A module, whatever code it runs, with its selector apart. -/
theorem toList_scriptModule (a : Animation) (code : String) : (a.scriptModule code).toList =
    a.moduleOpening.toList ++ '\'' :: (a.selector.toList ++ '\'' :: (moduleGuard.toList ++
      ((indentBlock code).toList ++ '\n' :: "\x7d\n".toList))) := by
  have hopen : "const element = document.querySelector('#".toList =
      "const element = document.querySelector(".toList ++ '\'' :: "#".toList := by decide
  have hclose : "');".toList = '\'' :: ");".toList := by decide
  have hend : "\n\x7d\n".toList = '\n' :: "\x7d\n".toList := by decide
  unfold scriptModule scriptLookup
  simp only [moduleOpening, moduleGuard, selector, String.toList_append, hopen, hclose, hend,
    List.append_assoc, List.cons_append]

theorem assemble_modulePieces {a : Animation} (h : ∀ piece ∈ a.scriptPieces, piece.KeepsLines) :
    assemble a.modulePieces = (a.scriptModule (a.scriptCode a.scriptSteps)).toList := by
  have hlast : (a.scriptCode a.scriptSteps).toList.getLast? = some '\n' := by
    unfold scriptCode
    rw [String.toList_append, List.getLast?_append]
    rfl
  have hcode : assemble (moveAll true a.scriptPieces) =
      (indentBlock (a.scriptCode a.scriptSteps)).toList ++ ['\n'] := by
    rw [assemble_moveAll h, assemble_scriptPieces, toList_indentBlock hlast]
  rw [toList_scriptModule, modulePieces, assemble_append, assemble_append, hcode]
  simp only [assemble_code, assemble_literal, assemble_nil, List.append_assoc, List.cons_append,
    List.nil_append, List.append_nil]

theorem readFaithfully_scriptPieces_iff {a : Animation} : ReadFaithfully a.scriptPieces ↔
    ∀ s ∈ a.scriptSteps, ∀ text ∈ s.quotedTexts, IsPlainText '"' text := by
  have hmarks : ∀ entry ∈ quotations a.scriptPieces, entry.1 ≠ '\\' := by
    rw [quotations_scriptPieces, List.forall_mem_map]
    rintro _ - ⟨⟩
  rw [readFaithfully_iff hmarks, quotations_scriptPieces, List.forall_mem_map,
    List.forall_mem_flatMap]

theorem isPlainText_selector_iff {a : Animation} :
    IsPlainText '\'' a.selector ↔ IsPlainText '\'' a.elementId := by
  have hname : IsPlainText '\'' "element-" := by decide
  have hmark : IsPlainText '\'' "#" := by decide
  rw [selector, elementName, isPlainText_append, isPlainText_append, and_iff_right hmark,
    and_iff_right hname]

/-- The literals of a script are read, where they stand, as the values and easings that they are
written for exactly when none of these needs an escape, and the selector of its module as that of
the element exactly when the id needs none. The module then holds the same literals. -/
theorem script_literals_faithful_iff (a : Animation) :
    assemble a.scriptPieces = (a.scriptCode a.scriptSteps).toList ∧
      quotations a.scriptPieces =
        (a.scriptSteps.flatMap ScriptStep.quotedTexts).map ('"', ·) ∧
      (ReadFaithfully a.scriptPieces ↔
        ∀ s ∈ a.scriptSteps, ∀ text ∈ s.quotedTexts, IsPlainText '"' text) ∧
      (∀ code, ∃ rest, (a.scriptModule code).toList =
          a.moduleOpening.toList ++ '\'' :: (a.selector.toList ++ '\'' :: rest) ∧
        (Literal.readString? '\'' .plain (a.selector.toList ++ '\'' :: rest) =
            some (a.selector.toList, rest) ↔ IsPlainText '\'' a.elementId)) ∧
      (ReadFaithfully a.scriptPieces → IsPlainText '\'' a.elementId →
        assemble a.modulePieces = (a.scriptModule (a.scriptCode a.scriptSteps)).toList ∧
          quotations a.modulePieces = ('\'', a.selector) :: quotations a.scriptPieces ∧
          ReadFaithfully a.modulePieces) := by
  refine ⟨a.assemble_scriptPieces, a.quotations_scriptPieces, readFaithfully_scriptPieces_iff,
    fun code => ?_, fun hscript hid => ?_⟩
  · refine ⟨_, a.toList_scriptModule code, ?_⟩
    rw [Literal.readString?_self_iff (by decide), ← isPlainText_selector_iff]
    rfl
  · have hquotations :
        quotations a.modulePieces = ('\'', a.selector) :: quotations a.scriptPieces := by
      rw [modulePieces, quotations_append, quotations_append, quotations_moveAll]
      exact congrArg _ (List.append_nil _)
    have hplain := readFaithfully_scriptPieces_iff.mp hscript
    refine ⟨assemble_modulePieces (scriptPieces_keepLines hplain), hquotations, ?_⟩
    have hmarks : ∀ entry ∈ quotations a.modulePieces, entry.1 ≠ '\\' := by
      rw [hquotations, quotations_scriptPieces, List.forall_mem_cons, List.forall_mem_map]
      exact ⟨nofun, by rintro _ - ⟨⟩⟩
    rw [readFaithfully_iff hmarks, hquotations, quotations_scriptPieces, List.forall_mem_cons,
      List.forall_mem_map, List.forall_mem_flatMap]
    exact ⟨isPlainText_selector_iff.mpr hid, hplain⟩

/-- An animation that ends in one value. -/
private def endingIn (value : String) : Animation :=
  ⟨"reveal", "hero", "Reveal", .entry,
    [⟨"paint", "hero", "backgroundImage", [.ofValue "a" 1000 (.text value)], "ease-out"⟩], 1000, 0⟩

theorem bare_url_read_faithfully : let a := endingIn "url(x.png)"
    ReadFaithfully a.scriptPieces ∧ IsPlainText '\'' a.elementId ∧
      ReadFaithfully a.modulePieces := by
  obtain ⟨-, -, hscript, -, hmodule⟩ := script_literals_faithful_iff (endingIn "url(x.png)")
  have hread : ReadFaithfully (endingIn "url(x.png)").scriptPieces := hscript.mpr (by decide)
  have hid : IsPlainText '\'' (endingIn "url(x.png)").elementId := by decide
  exact ⟨hread, hid, (hmodule hread hid).2.2⟩

/-- A value with quotation marks of its own ends its literal early. -/
theorem quoted_url_ends_early : let a := endingIn "url(\"x.png\")"
    assemble a.scriptPieces = (a.scriptCode a.scriptSteps).toList ∧
      ('"', "url(\"x.png\")") ∈ quotations a.scriptPieces ∧ ¬ ReadFaithfully a.scriptPieces ∧
      Literal.readString? '"' .plain "url(\"x.png\")\"".toList =
        some ("url(".toList, "x.png\")\"".toList) := by
  refine ⟨assemble_scriptPieces _, ?_, ?_, by decide⟩
  · rw [quotations_scriptPieces]
    decide
  · rw [readFaithfully_scriptPieces_iff]
    decide

end Animation

end Pagewright
