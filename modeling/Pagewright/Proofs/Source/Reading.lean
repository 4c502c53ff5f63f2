import Pagewright.Source.Tidy

/-! The brace check with open braces counted and lines left out, and the texts that such a reading
passes from code to code. -/

namespace Pagewright

/-- A state of the brace check, of which the open braces are only counted. -/
structure Reading where
  mode : Mode
  depth : Nat
deriving DecidableEq

namespace Mode

/-- Whether a line break in this mode lies neither in a string nor in a block comment. -/
def allowsBreak : Mode → Bool
  | code | slash | lineComment => true
  | _ => false

/-- Whether a character is read as code. -/
def readsCode : Mode → Char → Bool
  | code, _ => true
  | slash, c => c ≠ '/' && c ≠ '*'
  | _, _ => false

/-- The mode after a character that is not read as code. -/
def after (mode : Mode) (c : Char) : Mode :=
  match mode with
  | code => code
  | slash => if c = '/' then lineComment else blockComment
  | quoted mark =>
    if c = '\\' then escaped mark
    else if c = mark || (c = '\n' && mark ≠ '\x60') then code
    else quoted mark
  | escaped mark => quoted mark
  | lineComment => if c = '\n' then code else lineComment
  | blockComment => if c = '*' then star else blockComment
  | star => if c = '/' then code else if c = '*' then star else blockComment

/-- Whether a reader in this mode stands in code, given what comes next: right after a slash it
does unless a comment begins. -/
def isCodeBefore (mode : Mode) (next : Option Char) : Bool :=
  mode = .code || mode = .slash && next ≠ some '/' && next ≠ some '*'

end Mode

namespace Reading

/-- The state after a character of code, if it does not close more braces than are open. -/
def readCode? (depth : Nat) (c : Char) : Option Reading :=
  if c = '{' then some ⟨.code, depth + 1⟩
  else if c = '}' then
    match depth with
    | 0 => none
    | depth + 1 => some ⟨.code, depth⟩
  else some ⟨BraceScan.codeMode c, depth⟩

/-- Reads the next character of a source. -/
def step? (r : Reading) (c : Char) : Option Reading :=
  if r.mode.readsCode c then readCode? r.depth c else some ⟨r.mode.after c, r.depth⟩

/-- Reads a piece of source. -/
def run? (r : Reading) (text : List Char) : Option Reading := text.foldlM step? r

/-- Reads the next character, unless it breaks a line in a string or a block comment. -/
def calmStep? (r : Reading) (c : Char) : Option Reading :=
  if c = '\n' && !r.mode.allowsBreak then none else r.step? c

/-- Reads a piece of source in which strings and block comments stay within their lines. -/
def calmRun? (r : Reading) (text : List Char) : Option Reading := text.foldlM calmStep? r

/-- The state with further braces open around it. -/
def deepen (k : Nat) (r : Reading) : Reading := ⟨r.mode, r.depth + k⟩

variable {r r' : Reading}

@[simp] theorem run?_nil (r : Reading) : r.run? [] = some r := rfl

@[simp] theorem run?_cons (r : Reading) (c : Char) (rest : List Char) :
    r.run? (c :: rest) = (r.step? c).bind fun next => next.run? rest := by
  rw [run?, List.foldlM_cons]
  rfl

theorem run?_append (r : Reading) (a b : List Char) :
    r.run? (a ++ b) = (r.run? a).bind fun next => next.run? b := by
  rw [run?, List.foldlM_append]
  rfl

@[simp] theorem calmRun?_nil (r : Reading) : r.calmRun? [] = some r := rfl

@[simp] theorem calmRun?_cons (r : Reading) (c : Char) (rest : List Char) :
    r.calmRun? (c :: rest) = (r.calmStep? c).bind fun next => next.calmRun? rest := by
  rw [calmRun?, List.foldlM_cons]
  rfl

theorem calmRun?_append (r : Reading) (a b : List Char) :
    r.calmRun? (a ++ b) = (r.calmRun? a).bind fun next => next.calmRun? b := by
  rw [calmRun?, List.foldlM_append]
  rfl

theorem step?_of_calmStep? {c : Char} (h : r.calmStep? c = some r') : r.step? c = some r' := by
  rw [calmStep?] at h
  split at h
  · cases h
  · exact h

theorem run?_of_calmRun? {text : List Char} (h : r.calmRun? text = some r') :
    r.run? text = some r' := by
  induction text generalizing r with
  | nil => exact h
  | cons c rest ih =>
    rw [calmRun?_cons] at h
    obtain ⟨next, hc, hrest⟩ := Option.bind_eq_some_iff.mp h
    rw [run?_cons, step?_of_calmStep? hc]
    exact ih hrest

/-- A text without line breaks is read calmly. -/
theorem calmRun?_eq_run? {text : List Char} (h : '\n' ∉ text) (r : Reading) :
    r.calmRun? text = r.run? text := by
  induction text generalizing r with
  | nil => rfl
  | cons c rest ih =>
    obtain ⟨hc, hrest⟩ := not_or.mp (mt List.mem_cons.mpr h)
    have hcalm : r.calmStep? c = r.step? c := by
      have : c ≠ '\n' := fun e => hc e.symm
      simp [calmStep?, this]
    rw [calmRun?_cons, run?_cons, hcalm]
    congr 1
    funext next
    exact ih hrest next

private theorem readCode?_deepen {depth : Nat} {c : Char} (k : Nat)
    (h : readCode? depth c = some r) : readCode? (depth + k) c = some (r.deepen k) := by
  unfold readCode? at h ⊢
  by_cases hopen : c = '{'
  · rw [if_pos hopen] at h ⊢
    obtain rfl := Option.some.inj h
    rw [deepen, Nat.add_right_comm]
  by_cases hclose : c = '}'
  · rw [if_neg hopen, if_pos hclose] at h ⊢
    cases depth with
    | zero => cases h
    | succ depth =>
      obtain rfl := Option.some.inj h
      rw [deepen, Nat.add_right_comm]
  · rw [if_neg hopen, if_neg hclose] at h ⊢
    obtain rfl := Option.some.inj h
    rfl

theorem calmStep?_deepen {c : Char} (k : Nat) (h : r.calmStep? c = some r') :
    (r.deepen k).calmStep? c = some (r'.deepen k) := by
  change (if c = '\n' && !r.mode.allowsBreak then none else (r.deepen k).step? c) = _
  unfold calmStep? at h
  split at h
  · cases h
  · next hb =>
    rw [if_neg hb]
    change (if r.mode.readsCode c then readCode? (r.depth + k) c else
      some ⟨r.mode.after c, r.depth + k⟩) = _
    unfold step? at h
    split at h
    · next hc =>
      rw [if_pos hc]
      exact readCode?_deepen k h
    · next hc =>
      rw [if_neg hc]
      obtain rfl := Option.some.inj h
      rfl

/-- Braces that are open around a text do not change how it is read. -/
theorem calmRun?_deepen {text : List Char} (k : Nat) (h : r.calmRun? text = some r') :
    (r.deepen k).calmRun? text = some (r'.deepen k) := by
  induction text generalizing r with
  | nil =>
    obtain rfl := Option.some.inj h
    rfl
  | cons c rest ih =>
    rw [calmRun?_cons] at h ⊢
    obtain ⟨next, hc, hrest⟩ := Option.bind_eq_some_iff.mp h
    rw [calmStep?_deepen k hc]
    exact ih hrest

end Reading

namespace BraceScan

/-- The state without its lines. -/
def reading (s : BraceScan) : Reading := ⟨s.mode, s.opened.length⟩

private theorem reading_readCode (s : BraceScan) (c : Char) :
    Reading.readCode? s.opened.length c = (s.readCode c).toOption.map reading := by
  obtain ⟨mode, line, opened⟩ := s
  unfold Reading.readCode? readCode
  split
  · rfl
  · split
    · cases opened <;> rfl
    · rfl

/-- Outside code a character only changes the mode. -/
theorem readChar_eq (s : BraceScan) (c : Char) : s.readChar c =
    if s.mode.readsCode c then s.readCode c else .ok { s with mode := s.mode.after c } := by
  obtain ⟨mode, line, opened⟩ := s
  cases mode with
  | code | escaped mark | star => rfl
  | slash =>
    by_cases hline : c = '/'
    · subst hline
      rfl
    by_cases hblock : c = '*'
    · subst hblock
      rfl
    · simp [readChar, Mode.readsCode, hline, hblock]
  | quoted mark =>
    simp only [readChar, Mode.readsCode, Mode.after, Bool.false_eq_true, if_false]
    split
    · rfl
    · split <;> rfl
  | lineComment | blockComment =>
    simp only [readChar, Mode.readsCode, Mode.after, Bool.false_eq_true, if_false]
    split <;> rfl

private theorem reading_readChar (s : BraceScan) (c : Char) :
    s.reading.step? c = (s.readChar c).toOption.map reading := by
  rw [readChar_eq]
  change (if s.mode.readsCode c then Reading.readCode? s.opened.length c else
    some ⟨s.mode.after c, s.opened.length⟩) = _
  cases s.mode.readsCode c with
  | true => exact reading_readCode s c
  | false => rfl

theorem reading_step (s : BraceScan) (c : Char) :
    s.reading.step? c = (s.step c).toOption.map reading := by
  rw [step, ← reading_readChar]
  split <;> rfl

theorem reading_run (s : BraceScan) (text : List Char) :
    s.reading.run? text = (s.run text).toOption.map reading := by
  induction text generalizing s with
  | nil => rfl
  | cons c rest ih =>
    rw [Reading.run?_cons, reading_step, run, List.foldlM_cons]
    cases s.step c with
    | error fault => rfl
    | ok next => exact ih next

theorem run_cons (s : BraceScan) (c : Char) (rest : List Char) :
    s.run (c :: rest) = (s.step c).bind fun next => next.run rest := by
  rw [run, List.foldlM_cons]
  rfl

theorem run_append (s : BraceScan) (a b : List Char) :
    s.run (a ++ b) = (s.run a).bind fun next => next.run b := by
  rw [run, List.foldlM_append]
  rfl

/-- Right after a slash the check reads code like anywhere else in code. -/
theorem run_of_isCodeBefore {s : BraceScan} {c : Char}
    (h : s.mode.isCodeBefore (some c)) (rest : List Char) :
    s.run (c :: rest) = run { s with mode := .code } (c :: rest) := by
  have hcode : s.mode.readsCode c := by
    unfold Mode.isCodeBefore at h
    cases hmode : s.mode <;> simp_all [Mode.readsCode]
  have hchar (line : Nat) : readChar { s with line := line } c =
      readChar { s with mode := .code, line := line } c := by
    rw [readChar_eq, if_pos hcode]
    rfl
  have hstep : s.step c = step { s with mode := .code } c := by
    unfold step
    split
    · exact hchar (s.line + 1)
    · exact hchar s.line
  rw [run_cons, run_cons, hstep]

end BraceScan

/-- A source passes the brace check exactly when its reading ends with no brace open. -/
theorem checkBraces_eq_ok_iff {source : List Char} :
    checkBraces source = .ok () ↔ ∃ mode, Reading.run? ⟨.code, 0⟩ source = some ⟨mode, 0⟩ := by
  have hrun : Reading.run? ⟨.code, 0⟩ source =
      (BraceScan.start.run source).toOption.map BraceScan.reading :=
    BraceScan.reading_run .start source
  rw [checkBraces, hrun]
  cases BraceScan.start.run source with
  | error fault => simp [Except.bind, Except.toOption]
  | ok s =>
    obtain ⟨mode, line, opened⟩ := s
    cases opened <;> simp [Except.bind, Except.toOption, BraceScan.finish, BraceScan.reading]

/-- A brace that is open at the end is reported with its line. -/
theorem checkBraces_unclosed {source : List Char} {mode : Mode} {last line : Nat} {rest : List Nat}
    (h : (BraceScan.start.run source).toOption = some ⟨mode, last, line :: rest⟩) :
    checkBraces source = .error (line, .unclosedOpen) := by
  unfold checkBraces
  cases hscan : BraceScan.start.run source with
  | error fault =>
    rw [hscan] at h
    cases h
  | ok s =>
    rw [hscan] at h
    obtain rfl := Option.some.inj h
    rfl

end Pagewright
