import Pagewright.Proofs.Source.Reading
import Pagewright.Text.Replace

/-! Texts that can stand in code without a trace: they lead from code to code, with strings and
block comments that stay within their lines, and leave the same braces open. -/

namespace Pagewright

/-- The text leads from code to code and from one number of open braces to another. -/
def Passes (before : Nat) (text : List Char) (after : Nat) : Prop :=
  Reading.calmRun? ⟨.code, before⟩ text = some ⟨.code, after⟩

/-- The text leads from code to code, and the braces that it opens are those that it closes. -/
def Level (text : List Char) : Prop := Passes 0 text 0

/-- The text can stand in a string: after it the string is still open. -/
def Inside (mark : Char) (text : List Char) : Prop :=
  Reading.calmRun? ⟨.quoted mark, 0⟩ text = some ⟨.quoted mark, 0⟩

instance (before : Nat) (text : List Char) (after : Nat) : Decidable (Passes before text after) :=
  inferInstanceAs (Decidable (_ = _))

instance (text : List Char) : Decidable (Level text) :=
  inferInstanceAs (Decidable (Passes 0 text 0))

instance (mark : Char) (text : List Char) : Decidable (Inside mark text) :=
  inferInstanceAs (Decidable (_ = _))

/-- Whether a character of code neither opens nor closes anything. -/
def isInert (c : Char) : Bool :=
  c ≠ '"' && c ≠ '\'' && c ≠ '\x60' && c ≠ '/' && c ≠ '{' && c ≠ '}'

variable {a b text : List Char} {c mark : Char} {x y z : Nat}

namespace Passes

theorem append (ha : Passes x a y) (hb : Passes y b z) : Passes x (a ++ b) z := by
  rw [Passes, Reading.calmRun?_append, ha]
  exact hb

theorem deepen (h : Passes x text y) (k : Nat) : Passes (x + k) text (y + k) :=
  Reading.calmRun?_deepen k h

/-- After a source that closes all braces the check has nothing to complain about. -/
theorem checkBraces_eq_ok (h : Passes 0 text 0) : checkBraces text = .ok () :=
  checkBraces_eq_ok_iff.mpr ⟨.code, Reading.run?_of_calmRun? h⟩

end Passes

namespace Reading

theorem calmStep?_code {depth : Nat} (hc : isInert c) :
    calmStep? ⟨.code, depth⟩ c = some ⟨.code, depth⟩ := by
  simp only [isInert, Bool.and_eq_true, decide_eq_true_eq] at hc
  obtain ⟨⟨⟨⟨⟨hdouble, hsingle⟩, hgrave⟩, hslash⟩, hopen⟩, hclose⟩ := hc
  simp [calmStep?, step?, Mode.allowsBreak, Mode.readsCode, readCode?, BraceScan.codeMode, *]

/-- A slash is code unless it begins a comment. -/
theorem calmRun?_slash (hline : c ≠ '/') (hblock : c ≠ '*') (r : Reading) (hr : r.mode = .code)
    (rest : List Char) : r.calmRun? ('/' :: c :: rest) = r.calmRun? (c :: rest) := by
  obtain ⟨mode, depth⟩ := r
  subst hr
  have hslash : calmStep? ⟨.code, depth⟩ '/' = some ⟨.slash, depth⟩ := rfl
  have hnext : calmStep? ⟨.slash, depth⟩ c = calmStep? ⟨.code, depth⟩ c := by
    simp [calmStep?, step?, Mode.allowsBreak, Mode.readsCode, hline, hblock]
  rw [calmRun?_cons, hslash, Option.bind_some, calmRun?_cons, hnext, ← calmRun?_cons]

end Reading

namespace Level

theorem nil : Level [] := rfl

theorem passes (h : Level text) (depth : Nat) : Passes depth text depth := by
  simpa using Passes.deepen h depth

theorem append (ha : Level a) (hb : Level b) : Level (a ++ b) := Passes.append ha hb

theorem of_inert (h : ∀ c ∈ text, isInert c) : Level text := by
  induction text with
  | nil => exact nil
  | cons c rest ih =>
    obtain ⟨hc, hrest⟩ := List.forall_mem_cons.mp h
    rw [Level, Passes, Reading.calmRun?_cons, Reading.calmStep?_code hc]
    exact ih hrest

theorem braces (h : Level text) : Level ('{' :: text ++ ['}']) := by
  have hopen : Passes 0 ['{'] 1 := rfl
  have hclose : Passes 1 ['}'] 0 := rfl
  exact (hopen.append (h.passes 1)).append hclose

theorem flatMap {α : Type} {f : α → List Char} {l : List α} (h : ∀ x ∈ l, Level (f x)) :
    Level (l.flatMap f) := by
  induction l with
  | nil => exact nil
  | cons x rest ih =>
    obtain ⟨hx, hrest⟩ := List.forall_mem_cons.mp h
    rw [List.flatMap_cons]
    exact hx.append (ih hrest)

end Level

namespace Inside

theorem nil : Inside mark [] := rfl

theorem append (ha : Inside mark a) (hb : Inside mark b) : Inside mark (a ++ b) := by
  rw [Inside, Reading.calmRun?_append, ha]
  exact hb

theorem flatMap {α : Type} {f : α → List Char} (h : ∀ x, Inside mark (f x)) (l : List α) :
    Inside mark (l.flatMap f) := by
  induction l with
  | nil => exact nil
  | cons x rest ih =>
    rw [List.flatMap_cons]
    exact (h x).append ih

theorem char (hmark : c ≠ mark) (hbackslash : c ≠ '\\') (hbreak : c ≠ '\n') : Inside mark [c] := by
  simp [Inside, Reading.calmStep?, Reading.step?, Mode.readsCode, Mode.after, *]

/-- Between its marks the text is a string. -/
theorem level (hmark : mark = '"' ∨ mark = '\'') (h : Inside mark text) :
    Level (mark :: text ++ [mark]) := by
  have hopen : Reading.calmStep? ⟨.code, 0⟩ mark = some ⟨.quoted mark, 0⟩ := by
    rcases hmark with rfl | rfl <;> rfl
  have hclose : Reading.calmRun? ⟨.quoted mark, 0⟩ [mark] = some ⟨.code, 0⟩ := by
    rcases hmark with rfl | rfl <;> rfl
  rw [Level, Passes, List.cons_append, Reading.calmRun?_cons, hopen, Option.bind_some,
    Reading.calmRun?_append, h]
  exact hclose

end Inside

end Pagewright
