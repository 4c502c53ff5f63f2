import Pagewright.Proofs.Source.Lexemes
import Pagewright.Proofs.Source.Reading

/-!
The brace check reads a source lexeme by lexeme: behind a string or a comment it goes on in code,
with the same braces open.
-/

namespace Pagewright

namespace BraceScan

/-- What the check says about a source of which it still has some text to read. -/
def verdict (s : BraceScan) (text : List Char) : Except (Nat × BraceFault) Unit :=
  (s.run text).bind finish

variable {mode last : Mode} {line : Nat} {opened : List Nat} {text rest after : List Char}

theorem verdict_cons (s : BraceScan) (c : Char) (rest : List Char) :
    s.verdict (c :: rest) = (s.step c).bind fun next => next.verdict rest := by
  rw [verdict, run_cons]
  cases s.step c <;> rfl

/-- Text that is not read as code, with the modes in front of it and behind it. -/
inductive Hides : Mode → List Char → Mode → Prop where
  | nil (mode : Mode) : Hides mode [] mode
  | cons {mode last : Mode} {c : Char} {rest : List Char} (hmode : mode.readsCode c = false) :
      Hides (mode.after c) rest last → Hides mode (c :: rest) last

theorem Hides.verdict (h : Hides mode text last) :
    BraceScan.verdict ⟨mode, line, opened⟩ (text ++ rest) =
      BraceScan.verdict ⟨last, line + text.count '\n', opened⟩ rest := by
  induction h generalizing line with
  | nil => rfl
  | @cons mode last c rest hmode _ ih =>
    have hstep : step ⟨mode, line, opened⟩ c =
        .ok ⟨mode.after c, line + (if c = '\n' then 1 else 0), opened⟩ := by
      rw [step, readChar_eq]
      split <;> simp [hmode]
    rw [List.cons_append, verdict_cons, hstep, List.count_cons, Nat.add_comm (List.count _ _),
      ← Nat.add_assoc]
    simp only [beq_iff_eq]
    exact ih

/-- In which mode a source ends does not matter. -/
theorem Hides.verdict_code (h : Hides mode text last) (hlast : last = .code ∨ after = []) :
    BraceScan.verdict ⟨mode, line, opened⟩ (text ++ after) =
      BraceScan.verdict ⟨.code, line + text.count '\n', opened⟩ after := by
  rw [h.verdict]
  rcases hlast with rfl | rfl <;> rfl

theorem Hides.append {middle : Mode} (hleft : Hides mode text middle)
    (hright : Hides middle rest last) : Hides mode (text ++ rest) last := by
  induction hleft with
  | nil => exact hright
  | cons hmode _ ih => exact .cons hmode (ih hright)

end BraceScan

namespace Lexeme

open BraceScan

variable {line : Nat} {opened : List Nat} {mark : Char} {body ending after : List Char}

theorem LeavesOpen.hides (h : LeavesOpen mark body) :
    Hides (.quoted mark) body (.quoted mark) := by
  induction h with
  | nil => exact .nil _
  | plain hbackslash hmark hbreak _ ih =>
    refine .cons rfl ?_
    rw [Mode.after, if_neg hbackslash, if_neg (by simpa [hmark] using hbreak)]
    exact ih
  | hidden c _ ih => exact .cons rfl (.cons rfl ih)

/-- Behind a string the check is in code, or the source is over. -/
theorem EndsString.hides (hmark : mark ≠ '\\') (h : EndsString mark ending after) :
    ∃ last, Hides (.quoted mark) ending last ∧ (last = .code ∨ after = []) := by
  cases h with
  | mark =>
    have hafter : Mode.after (.quoted mark) mark = .code := by simp [Mode.after, hmark]
    exact ⟨.code, .cons rfl (hafter ▸ .nil _), .inl rfl⟩
  | lineBreak htemplate =>
    have hafter : Mode.after (.quoted mark) '\n' = .code := by simp [Mode.after, htemplate]
    exact ⟨.code, .cons rfl (hafter ▸ .nil _), .inl rfl⟩
  | sourceEnd => exact ⟨_, .nil _, .inr rfl⟩
  | backslash => exact ⟨_, .cons rfl (.nil _), .inr rfl⟩

theorem hides_line (hbody : '\n' ∉ body) : Hides .lineComment body .lineComment := by
  induction body with
  | nil => exact .nil _
  | cons c rest ih =>
    obtain ⟨hc, hrest⟩ := not_or.mp (mt List.mem_cons.mpr hbody)
    exact .cons rfl (by simpa [Mode.after, Ne.symm hc] using ih hrest)

/-- A block comment goes on without an end mark, unless its star came just before. -/
theorem hides_comment {mode : Mode} (hmode : mode = .blockComment ∨ mode = .star)
    (hstar : mode = .star → body.head? ≠ some '/') (hbody : ¬ commentEnd <:+: body) :
    ∃ last, Hides mode body last ∧ (last = .blockComment ∨ last = .star) := by
  induction body generalizing mode with
  | nil => exact ⟨mode, .nil mode, hmode⟩
  | cons c rest ih =>
    obtain ⟨hc, hrest⟩ := not_or.mp (mt commentEnd_infix_cons.mpr hbody)
    have hafter : mode.after c = if c = '*' then .star else .blockComment := by
      rcases hmode with rfl | rfl
      · rfl
      · rw [Mode.after, if_neg (by simpa using hstar rfl)]
    have hnext : mode.after c = .blockComment ∨ mode.after c = .star := by
      rw [hafter]
      split <;> simp
    have hslash : mode.after c = .star → rest.head? ≠ some '/' := by
      rw [hafter]
      grind
    obtain ⟨last, hhides, hlast⟩ := ih hnext hslash hrest
    exact ⟨last, .cons (by rcases hmode with rfl | rfl <;> rfl) hhides, hlast⟩

/-- Behind a block comment the check is in code, or the source is over. -/
theorem EndsComment.hides (hbody : ¬ commentEnd <:+: body) (h : EndsComment ending after) :
    ∃ last, Hides .blockComment (body ++ ending) last ∧ (last = .code ∨ after = []) := by
  obtain ⟨last, hlast, hmode⟩ := hides_comment (.inl rfl) nofun hbody
  cases h with
  | mark =>
    refine ⟨.code, hlast.append ?_, .inl rfl⟩
    rcases hmode with rfl | rfl <;> exact .cons rfl (.cons rfl (.nil _))
  | sourceEnd => exact ⟨last, by rwa [List.append_nil], .inr rfl⟩

private theorem verdict_code {c : Char} (h : (code c).Fits after) (hopen : c ≠ '{')
    (hclose : c ≠ '}') : BraceScan.verdict ⟨.code, line, opened⟩ (c :: after) =
      BraceScan.verdict ⟨.code, line + [c].count '\n', opened⟩ after := by
  obtain ⟨hmark, hcomment⟩ := h
  have hstep : step ⟨.code, line, opened⟩ c =
      .ok ⟨if c = '/' then .slash else .code, line + [c].count '\n', opened⟩ := by
    rw [mem_marks] at hmark
    simp only [step, readChar, readCode, codeMode, hopen, hclose]
    grind
  rw [verdict_cons, hstep]
  by_cases hslash : c = '/'
  · rw [if_pos hslash]
    cases after with
    | nil => rfl
    | cons d rest =>
      obtain ⟨hline, hblock⟩ := hcomment hslash
      have hcode : Mode.slash.isCodeBefore (some d) := by simp_all [Mode.isCodeBefore]
      exact congrArg (·.bind finish) (run_of_isCodeBefore (s := ⟨.slash, _, opened⟩) hcode rest)
  · rw [if_neg hslash]
    rfl

/-- Behind every lexeme but a brace the check goes on in code, with the same braces open. -/
theorem Fits.verdict {l : Lexeme} (h : l.Fits after) (hopen : l ≠ .code '{')
    (hclose : l ≠ .code '}') (line : Nat) (opened : List Nat) :
    BraceScan.verdict ⟨.code, line, opened⟩ (l.text ++ after) =
      BraceScan.verdict ⟨.code, line + l.text.count '\n', opened⟩ after := by
  cases l with
  | code c => exact verdict_code h (by simpa using hopen) (by simpa using hclose)
  | quoted mark body ending =>
    obtain ⟨hmark, hbody, hending⟩ := h
    have hbegin : step ⟨.code, line, opened⟩ mark = .ok ⟨.quoted mark, line, opened⟩ := by
      rcases mem_marks.mp hmark with rfl | rfl | rfl <;> rfl
    have hbreak : mark ≠ '\n' := ne_of_mem_of_not_mem hmark (by decide)
    obtain ⟨last, hhides, hlast⟩ := hending.hides (ne_of_mem_of_not_mem hmark (by decide))
    rw [text, List.cons_append, verdict_cons, hbegin, List.count_cons_of_ne hbreak]
    exact (hbody.hides.append hhides).verdict_code hlast
  | lineComment body =>
    refine (hides_line h.1).verdict.trans ?_
    cases after with
    | nil => rfl
    | cons c rest =>
      obtain rfl := h.2 c rfl
      rfl
  | blockComment body ending =>
    obtain ⟨last, hhides, hlast⟩ := h.2.hides h.1
    exact hhides.verdict_code hlast

theorem verdict_open (line : Nat) (opened : List Nat) (after : List Char) :
    BraceScan.verdict ⟨.code, line, opened⟩ ('{' :: after) =
      BraceScan.verdict ⟨.code, line, line :: opened⟩ after := by
  rw [verdict_cons]
  rfl

theorem verdict_close (line opener : Nat) (opened : List Nat) (after : List Char) :
    BraceScan.verdict ⟨.code, line, opener :: opened⟩ ('}' :: after) =
      BraceScan.verdict ⟨.code, line, opened⟩ after := by
  rw [verdict_cons]
  rfl

theorem verdict_lone_close (line : Nat) (after : List Char) :
    BraceScan.verdict ⟨.code, line, []⟩ ('}' :: after) = .error (line, .unexpectedClose) := by
  rw [verdict_cons]
  rfl

end Lexeme

end Pagewright
