import Pagewright.Proofs.Source.Matching
import Pagewright.Proofs.Source.Modes
import Pagewright.Proofs.Source.Tidied

/-!
Tidying a tidied source. The blanks stay as they are, and the source is refused only if the braces
no longer match once the blanks at the ends of its lines are gone. That takes a string that hides
such a blank.
-/

namespace Pagewright

/-- The lines of a text without the blanks at their ends, with a line break behind each. -/
def trimLines (text : List Char) : List Char := unlines ((lines text).map trimEnd)

section Trim

variable {line : List Char}

theorem trimLines_break (h : '\n' ∉ line) (rest : List Char) :
    trimLines (line ++ '\n' :: rest) = trimEnd line ++ '\n' :: trimLines rest := by
  rw [trimLines, trimEnd_lines_break h, unlines_cons]
  rfl

theorem trimLines_of_break_notMem (h : '\n' ∉ line) (hne : line ≠ []) :
    trimLines line = trimEnd line ++ ['\n'] := by
  rw [trimLines, lines_of_break_notMem h hne, List.map_singleton, unlines_cons]
  rfl

theorem exists_trimEnd_append (line : List Char) :
    ∃ blanks, line = trimEnd line ++ blanks ∧ ∀ c ∈ blanks, isBlank c := by
  refine ⟨(line.reverse.takeWhile isBlank).reverse, ?_, ?_⟩
  · rw [trimEnd, ← List.reverse_append, List.takeWhile_append_dropWhile, List.reverse_reverse]
  · intro c hc
    exact List.all_eq_true.mp List.all_takeWhile c (List.mem_reverse.mp hc)

/-- Induction on the lines of a text. -/
theorem induction_lines {motive : List Char → Prop} (last : ∀ line, '\n' ∉ line → motive line)
    (step : ∀ line rest, '\n' ∉ line → motive rest → motive (line ++ '\n' :: rest))
    (text : List Char) : motive text := by
  have within (text : List Char) : ∀ line, '\n' ∉ line → motive (line ++ text) := by
    induction text with
    | nil =>
      intro line h
      rw [List.append_nil]
      exact last line h
    | cons c rest ih =>
      intro line h
      by_cases hc : c = '\n'
      · subst hc
        exact step line rest h (ih [] List.not_mem_nil)
      · have hlonger : '\n' ∉ line ++ [c] := by simp [h, Ne.symm hc]
        rw [List.append_cons]
        exact ih _ hlonger
  exact within text [] List.not_mem_nil

end Trim

namespace Mode

/-- Strings have one of their marks. -/
def IsMarked : Mode → Prop
  | quoted mark | escaped mark => mark ∈ Lexeme.marks
  | _ => True

/-- Blanks at the end of a line make no difference in this mode: no string hides one of them, or it
is a template, which goes on behind the line anyway. -/
def PassesMargin (mode : Mode) : Prop := ∀ mark, mode = escaped mark → mark = '\x60'

variable {mode : Mode} {c : Char}

theorem ne_of_isBlank {d : Char} (hc : isBlank c) (hd : isBlank d = false) : c ≠ d := by
  rintro rfl
  exact absurd hc (by simp [hd])

theorem codeMode_blank (hc : isBlank c) : BraceScan.codeMode c = code := by
  have hdouble : c ≠ '"' := ne_of_isBlank hc rfl
  have hsingle : c ≠ '\'' := ne_of_isBlank hc rfl
  have hgrave : c ≠ '\x60' := ne_of_isBlank hc rfl
  have hslash : c ≠ '/' := ne_of_isBlank hc rfl
  simp [BraceScan.codeMode, *]

theorem IsMarked.next (h : mode.IsMarked) (c : Char) : (mode.next c).IsMarked := by
  unfold Mode.next
  split
  · unfold BraceScan.codeMode
    split
    · next hmark => exact Lexeme.mem_marks.mpr (by simpa [or_assoc] using hmark)
    · split <;> trivial
  · cases mode with
    | code | lineComment | blockComment | slash | star | quoted =>
      simp only [after]
      (repeat' split) <;> trivial
    | escaped mark => exact h

theorem IsMarked.behind (h : mode.IsMarked) (text : List Char) : (mode.behind text).IsMarked := by
  induction text generalizing mode with
  | nil => exact h
  | cons c rest ih => exact ih (h.next c)

/-- A string hides what comes next behind a backslash only. -/
theorem eq_backslash_of_next {mark : Char} (h : mode.next c = escaped mark) : c = '\\' := by
  unfold Mode.next at h
  split at h
  · unfold BraceScan.codeMode at h
    (repeat' split at h) <;> cases h
  · cases mode with
    | code | lineComment | blockComment | slash | star | escaped =>
      simp only [after] at h
      (repeat' split at h) <;> cases h
    | quoted mark =>
      simp only [after] at h
      split at h
      · assumption
      · split at h <;> cases h

theorem passesMargin_next (hc : isBlank c) (mode : Mode) : (mode.next c).PassesMargin :=
  fun _ h => absurd (eq_backslash_of_next h) (ne_of_isBlank hc rfl)

theorem next_blank (hmode : mode.IsMarked) (hmargin : mode.PassesMargin) (hc : isBlank c)
    (hbreak : c ≠ '\n') : (mode.next c).next '\n' = mode.next '\n' := by
  cases mode with
  | code =>
    have hnext : code.next c = code := codeMode_blank hc
    rw [hnext]
  | slash =>
    have hslash : c ≠ '/' := ne_of_isBlank hc rfl
    have hstar : c ≠ '*' := ne_of_isBlank hc rfl
    have hnext : slash.next c = code := by
      simp [next, readsCode, hslash, hstar, codeMode_blank hc]
    rw [hnext]
    rfl
  | quoted mark =>
    have hbackslash : c ≠ '\\' := ne_of_isBlank hc rfl
    have hmark : c ≠ mark := by
      rcases Lexeme.mem_marks.mp hmode with rfl | rfl | rfl <;> exact ne_of_isBlank hc rfl
    have hnext : (quoted mark).next c = quoted mark := by
      simp [next, readsCode, after, hbackslash, hmark, hbreak]
    rw [hnext]
  | escaped mark =>
    obtain rfl := hmargin mark rfl
    rfl
  | lineComment =>
    have hnext : lineComment.next c = lineComment := by simp [next, readsCode, after, hbreak]
    rw [hnext]
  | blockComment =>
    have hstar : c ≠ '*' := ne_of_isBlank hc rfl
    have hnext : blockComment.next c = blockComment := by simp [next, readsCode, after, hstar]
    rw [hnext]
  | star =>
    have hslash : c ≠ '/' := ne_of_isBlank hc rfl
    have hstar : c ≠ '*' := ne_of_isBlank hc rfl
    have hnext : star.next c = blockComment := by simp [next, readsCode, after, hslash, hstar]
    rw [hnext]
    rfl

theorem behind_margin {blanks : List Char} (hmode : mode.IsMarked)
    (hblanks : ∀ c ∈ blanks, isBlank c ∧ c ≠ '\n')
    (hmargin : blanks ≠ [] → mode.PassesMargin) :
    mode.behind (blanks ++ ['\n']) = mode.next '\n' := by
  induction blanks generalizing mode with
  | nil => rfl
  | cons c rest ih =>
    obtain ⟨⟨hc, hbreak⟩, hrest⟩ := List.forall_mem_cons.mp hblanks
    have hline := next_blank hmode (hmargin (List.cons_ne_nil c rest)) hc hbreak
    rw [List.cons_append, behind_cons,
      ih (hmode.next c) hrest fun _ => passesMargin_next hc mode, hline]

/-- After two line breaks a third makes no difference. -/
theorem next_break_settled (mode : Mode) :
    ((mode.next '\n').next '\n').next '\n' = (mode.next '\n').next '\n' := by
  have hquoted (mark : Char) : ((quoted mark).next '\n').next '\n' = (quoted mark).next '\n' := by
    by_cases hmark : '\n' = mark ∨ mark ≠ '\x60'
    · have hnext : (quoted mark).next '\n' = code := by
        simp only [next, readsCode, after, Bool.false_eq_true, if_false]
        simpa using or_iff_not_imp_left.mp hmark
      rw [hnext]
      rfl
    · have hnext : (quoted mark).next '\n' = quoted mark := by
        simpa [next, readsCode, after] using hmark
      rw [hnext, hnext]
  cases mode with
  | quoted mark => rw [hquoted, hquoted]
  | escaped mark => exact hquoted mark
  | code | slash | lineComment | blockComment | star => rfl

end Mode

namespace Reading

variable {r r' : Reading} {c : Char} {a b text : List Char}

theorem step?_mode (h : r.step? c = some r') : r'.mode = r.mode.next c := by
  unfold step? at h
  unfold Mode.next
  split at h
  · next hcode =>
    rw [if_pos hcode]
    unfold readCode? at h
    split at h
    · next hopen =>
      subst hopen
      obtain rfl := Option.some.inj h
      rfl
    split at h
    · next hclose =>
      subst hclose
      split at h
      · cases h
      · obtain rfl := Option.some.inj h
        rfl
    · obtain rfl := Option.some.inj h
      rfl
  · next hcode =>
    rw [if_neg hcode]
    obtain rfl := Option.some.inj h
    rfl

theorem run?_mode (h : r.run? text = some r') : r'.mode = r.mode.behind text := by
  induction text generalizing r with
  | nil =>
    obtain rfl := Option.some.inj h
    rfl
  | cons c rest ih =>
    rw [run?_cons] at h
    obtain ⟨next, hc, hrest⟩ := Option.bind_eq_some_iff.mp h
    rw [ih hrest, step?_mode hc]
    rfl

/-- A blank opens and closes nothing. -/
theorem step?_blank (hc : isBlank c) (r : Reading) :
    r.step? c = some ⟨r.mode.next c, r.depth⟩ := by
  have hopen : c ≠ '{' := Mode.ne_of_isBlank hc rfl
  have hclose : c ≠ '}' := Mode.ne_of_isBlank hc rfl
  unfold step? Mode.next
  split <;> simp [readCode?, hopen, hclose]

theorem run?_blanks (h : ∀ c ∈ text, isBlank c) (r : Reading) :
    r.run? text = some ⟨r.mode.behind text, r.depth⟩ := by
  induction text generalizing r with
  | nil => rfl
  | cons c rest ih =>
    obtain ⟨hc, hrest⟩ := List.forall_mem_cons.mp h
    rw [run?_cons, step?_blank hc]
    exact ih hrest _

/-- The state after a line break. -/
def lineBreak (r : Reading) : Reading := ⟨r.mode.next '\n', r.depth⟩

/-- The source can end with the text: no brace is open then. -/
def Accepts (r : Reading) (text : List Char) : Prop := ∃ mode, r.run? text = some ⟨mode, 0⟩

theorem accepts_append : r.Accepts (a ++ b) ↔ ∃ r', r.run? a = some r' ∧ r'.Accepts b := by
  simp only [Accepts, run?_append, Option.bind_eq_some_iff]
  exact ⟨fun ⟨mode, r', ha, hb⟩ => ⟨r', ha, mode, hb⟩, fun ⟨r', ha, mode, hb⟩ => ⟨mode, r', ha, hb⟩⟩

theorem accepts_break : r.Accepts ('\n' :: text) ↔ r.lineBreak.Accepts text := by
  rw [Accepts, run?_cons, step?_blank rfl]
  rfl

theorem accepts_blanks (h : ∀ c ∈ text, isBlank c) : r.Accepts text ↔ r.depth = 0 := by
  rw [Accepts, run?_blanks h]
  simp

/-- What follows a line decides, if it is read in the state behind a line break. -/
theorem accepts_line (h : ∀ r : Reading, r.lineBreak.Accepts a ↔ r.lineBreak.Accepts b)
    (line : List Char) : r.Accepts (line ++ '\n' :: a) ↔ r.Accepts (line ++ '\n' :: b) := by
  simp only [accepts_append, accepts_break, h]

/-- Behind a line it makes no difference how many empty ones there are. -/
theorem accepts_settleLines (gap : Bool) (ls : List (List Char))
    (hr : r.lineBreak.lineBreak = r.lineBreak) :
    r.Accepts (unlines (settleLines true gap ls)) ↔
      (if gap then r.lineBreak else r).Accepts (unlines ls) := by
  induction ls generalizing r gap with
  | nil =>
    have hnil : ∀ c ∈ ([] : List Char), isBlank c := fun c hc => absurd hc List.not_mem_nil
    change r.Accepts [] ↔ (if gap then r.lineBreak else r).Accepts []
    rw [accepts_blanks hnil, accepts_blanks hnil]
    split <;> rfl
  | cons line rest ih =>
    by_cases hline : line = []
    · subst hline
      rw [settleLines, ih true hr, unlines_cons, List.nil_append, accepts_break]
      cases gap
      · rfl
      · simp [hr]
    · have hrest (r : Reading) : r.lineBreak.Accepts (unlines (settleLines true false rest)) ↔
          r.lineBreak.Accepts (unlines rest) :=
        ih false (by simp [lineBreak, Mode.next_break_settled])
      rw [settleLines_line hline]
      cases gap
      · rw [if_neg Bool.false_ne_true, if_neg Bool.false_ne_true, List.nil_append, unlines_cons,
          unlines_cons]
        exact accepts_line hrest line
      · rw [if_pos rfl, if_pos rfl, List.singleton_append, unlines_cons, List.nil_append,
          accepts_break, unlines_cons, unlines_cons]
        exact accepts_line hrest line

/-- In front of the first line empty ones make no difference. -/
theorem accepts_settleLines_start (depth : Nat) (ls : List (List Char)) :
    Accepts ⟨.code, depth⟩ (unlines (settleLines false false ls)) ↔
      Accepts ⟨.code, depth⟩ (unlines ls) := by
  induction ls with
  | nil => rfl
  | cons line rest ih =>
    by_cases hline : line = []
    · subst hline
      rw [settleLines, ih, unlines_cons, List.nil_append, accepts_break]
      rfl
    · rw [settleLines_line hline, if_neg Bool.false_ne_true, List.nil_append, unlines_cons,
        unlines_cons]
      refine accepts_line (fun r => ?_) line
      exact accepts_settleLines false rest (by simp [lineBreak, Mode.next_break_settled])

/-- Somewhere in front of the blanks at the end of a line a string hides the first one. -/
def Slips (mode : Mode) (text : List Char) : Prop :=
  ∃ before blanks after mark, text = before ++ (blanks ++ '\n' :: after) ∧ blanks ≠ [] ∧
    (∀ c ∈ blanks, isBlank c ∧ c ≠ '\n') ∧ mark ≠ '\x60' ∧ mode.behind before = .escaped mark

theorem Slips.prepend {mode : Mode} (h : Slips (mode.behind a) b) : Slips mode (a ++ b) := by
  obtain ⟨before, blanks, after, mark, rfl, hne, hblanks, hmark, hmode⟩ := h
  refine ⟨a ++ before, blanks, after, mark, by rw [List.append_assoc], hne, hblanks, hmark, ?_⟩
  rw [Mode.behind_append, hmode]

/-- Unless a string hides one of them, the blanks at the ends of lines make no difference. -/
theorem accepts_trimLines (text : List Char) (hr : r.mode.IsMarked) (h : ¬ Slips r.mode text) :
    r.Accepts (trimLines text) ↔ r.Accepts text := by
  induction text using induction_lines generalizing r with
  | last line hbreak =>
    by_cases hne : line = []
    · subst hne
      rfl
    obtain ⟨blanks, hline, hblanks⟩ := exists_trimEnd_append line
    rw [trimLines_of_break_notMem hbreak hne]
    conv_rhs => rw [hline]
    rw [accepts_append, accepts_append]
    have hnewline : ∀ c ∈ ['\n'], isBlank c := List.forall_mem_singleton.mpr (by decide)
    simp only [accepts_blanks hnewline, accepts_blanks hblanks]
  | step line rest hbreak ih =>
    obtain ⟨blanks, hline, hblanks⟩ := exists_trimEnd_append line
    have hall : ∀ c ∈ blanks, isBlank c ∧ c ≠ '\n' := fun c hc =>
      ⟨hblanks c hc, fun e => hbreak (hline ▸ List.mem_append_right _ (e ▸ hc))⟩
    have hsplit : line ++ '\n' :: rest = trimEnd line ++ ((blanks ++ ['\n']) ++ rest) := by
      conv_lhs => rw [hline]
      simp
    rw [trimLines_break hbreak, hsplit, accepts_append, accepts_append]
    refine exists_congr fun next => and_congr_right fun hrun => ?_
    have hmode : next.mode = r.mode.behind (trimEnd line) := run?_mode hrun
    have hmargin : blanks ≠ [] → next.mode.PassesMargin := fun hne mark hmark => by
      by_contra htemplate
      refine h ⟨trimEnd line, blanks, rest, mark, ?_, hne, hall, htemplate, hmode ▸ hmark⟩
      rw [hsplit, List.append_assoc]
      rfl
    have hmarked : next.mode.IsMarked := hmode ▸ hr.behind _
    have hnext : next.run? (blanks ++ ['\n']) = some next.lineBreak := by
      rw [run?_blanks (by simpa [or_imp, forall_and] using ⟨hblanks, rfl⟩),
        Mode.behind_margin hmarked hall hmargin]
      rfl
    have hrest : ¬ Slips next.lineBreak.mode rest := by
      intro hslips
      refine h ?_
      rw [hsplit, ← List.append_assoc]
      refine Slips.prepend ?_
      rw [Mode.behind_append, ← hmode, Mode.behind_margin hmarked hall hmargin]
      exact hslips
    rw [accepts_break, ih (hmarked.next '\n') hrest, accepts_append, hnext]
    simp

end Reading

/-- The braces in the code of a text match. -/
def BracesMatch (text : List Char) : Prop :=
  ∃ lexemes, Lexeme.source lexemes = text ∧ Lexeme.Lexed lexemes ∧ Lexeme.Balanced lexemes

/-- A string of the text, other than a template, ends at the end of its line with a backslash that
hides one of the blanks there. -/
def HidesMargin (text : List Char) : Prop :=
  ∃ lexemes, Lexeme.source lexemes = text ∧ Lexeme.Lexed lexemes ∧ Lexeme.HidesMargin lexemes

section Tidy

variable {source text : List Char}

theorem checkBraces_eq_ok_iff_bracesMatch : checkBraces text = .ok () ↔ BracesMatch text := by
  constructor
  · intro h
    obtain ⟨lexemes, rfl, hlexed⟩ := Lexeme.exists_lexed text
    have hverdict := hlexed.verdict
    rw [h] at hverdict
    cases hverdict with
    | balanced hbalanced => exact ⟨lexemes, rfl, hlexed, hbalanced⟩
  · rintro ⟨lexemes, rfl, hlexed, hbalanced⟩
    have hverdict := hlexed.verdict
    generalize checkBraces (Lexeme.source lexemes) = result at hverdict
    cases hverdict with
    | balanced => rfl
    | unexpected h => exact absurd h.1 hbalanced.not_loneClose
    | unclosed _ h => exact absurd h.1 hbalanced.not_loneOpen

/-- Of the changes that tidying makes, only the blanks that go at the ends of lines matter. -/
theorem checkBraces_settleBlanks (source : List Char) :
    checkBraces (settleBlanks source) = .ok () ↔ checkBraces (trimLines source) = .ok () := by
  rw [checkBraces_eq_ok_iff, checkBraces_eq_ok_iff]
  exact Reading.accepts_settleLines_start 0 _

theorem hidesMargin_of_slips (h : Reading.Slips .code source) : HidesMargin source := by
  obtain ⟨lexemes, rfl, hlexed⟩ := Lexeme.exists_lexed source
  obtain ⟨before, blanks, after, mark, hsource, hne, hblanks, hmark, hmode⟩ := h
  exact ⟨lexemes, rfl, hlexed, hlexed.hidesMargin hsource hmode hmark hne hblanks⟩

theorem checkBraces_trimLines (h : ¬ HidesMargin source) :
    checkBraces (trimLines source) = .ok () ↔ checkBraces source = .ok () := by
  rw [checkBraces_eq_ok_iff, checkBraces_eq_ok_iff]
  exact Reading.accepts_trimLines source trivial (mt hidesMargin_of_slips h)

/-- What is tidy is left unchanged if it is accepted again. It is accepted exactly when the braces
of the source still match without the blanks at the ends of its lines, and they do unless a string
hides one of these blanks. -/
theorem tidy_again (h : tidy source = .ok text) :
    (∀ again, tidy text = .ok again → again = text) ∧
      (tidy text = .ok text ↔ BracesMatch (trimLines source)) ∧
      (¬ HidesMargin source → tidy text = .ok text) := by
  obtain ⟨hbraces, rfl⟩ := tidy_eq_ok_iff.mp h
  have haccepted : tidy (settleBlanks source) = .ok (settleBlanks source) ↔
      checkBraces (trimLines source) = .ok () := by
    rw [tidy_eq_ok_iff, checkBraces_settleBlanks]
    exact and_iff_left (settleBlanks_settleBlanks source)
  refine ⟨fun again hagain => ?_, ?_, fun hmargin => ?_⟩
  · rw [← (tidy_eq_ok_iff.mp hagain).2, settleBlanks_settleBlanks]
  · rw [haccepted, checkBraces_eq_ok_iff_bracesMatch]
  · exact haccepted.mpr ((checkBraces_trimLines hmargin).mpr hbraces)

/-- A string hides something only behind a backslash. -/
theorem HidesMargin.backslash_mem (h : HidesMargin text) : '\\' ∈ text := by
  obtain ⟨lexemes, rfl, -, mark, body, blanks, -, -, -, -, hmem⟩ := h
  exact List.mem_flatMap.mpr ⟨_, hmem, by simp [Lexeme.text]⟩

/-- Blanks behind code, in a comment and in a template, and empty lines between them. -/
private def ragged : List Char := "f(`a \n\t\n\n`); /* \x7b  \n */ \r\n\x7b \n\x7d\n\n".toList

private def raggedTidied : List Char := "f(`a\n\n`); /* \x7b\n */\n\x7b\n\x7d\n".toList

theorem ragged_tidy_again : tidy ragged = .ok raggedTidied ∧
    tidy raggedTidied = .ok raggedTidied ∧ BracesMatch (trimLines ragged) := by
  have h : tidy ragged = .ok raggedTidied := by decide
  obtain ⟨-, hiff, hstays⟩ := tidy_again h
  have hplain : ¬ HidesMargin ragged := fun hmargin =>
    absurd hmargin.backslash_mem (by decide)
  exact ⟨h, hstays hplain, hiff.mp (hstays hplain)⟩

/-- In running text a quotation mark begins a string for the check. Tidying takes the blank behind
its backslash away, which then hides the line break and with it the end of the string. -/
theorem tidy_refuses_tidied :
    tidy "<p>\n  don't \\ \n  \x7b\n    name\n  \x7d\n</p>\n".toList =
        .ok "<p>\n  don't \\\n  \x7b\n    name\n  \x7d\n</p>\n".toList ∧
      tidy "<p>\n  don't \\\n  \x7b\n    name\n  \x7d\n</p>\n".toList =
        .error (.malformed 5 .unexpectedClose) := by
  decide

end Tidy

end Pagewright
