import Mathlib.Data.List.Induction
import Pagewright.Markup.Escape
import Pagewright.Proofs.Source.Balance

/-! What the escaped forms of a text do to the braces around them. Running text is level whatever
it holds; an attribute value closes its quotation mark unless it ends in an odd number of
backslashes. -/

namespace Pagewright

/-- How many backslashes a text ends in. -/
def endingBackslashes (text : List Char) : Nat := (text.reverse.takeWhile fun c => c = '\\').length

/-- A text ends in an odd number of backslashes, the last of which would escape what follows. -/
def EndsInEscape (s : String) : Prop := endingBackslashes s.toList % 2 = 1

instance (s : String) : Decidable (EndsInEscape s) := inferInstanceAs (Decidable (_ = 1))

@[simp] theorem endingBackslashes_nil : endingBackslashes [] = 0 := rfl

theorem endingBackslashes_concat (text : List Char) (c : Char) :
    endingBackslashes (text ++ [c]) = if c = '\\' then endingBackslashes text + 1 else 0 := by
  unfold endingBackslashes
  rw [List.reverse_append, List.reverse_singleton, List.singleton_append, List.takeWhile_cons]
  split <;> simp_all

/-- Only what follows the last character that is no backslash counts. -/
theorem endingBackslashes_append {c : Char} (hc : c ≠ '\\') (before text : List Char) :
    endingBackslashes (before ++ c :: text) = endingBackslashes text := by
  induction text using List.reverseRecOn with
  | nil => rw [endingBackslashes_concat, if_neg hc, endingBackslashes_nil]
  | append_singleton text last ih =>
    rw [← List.cons_append, ← List.append_assoc, endingBackslashes_concat,
      endingBackslashes_concat, ih]

theorem endingBackslashes_eq_zero {text : List Char} (h : '\\' ∉ text) :
    endingBackslashes text = 0 := by
  induction text using List.reverseRecOn with
  | nil => rfl
  | append_singleton text last ih =>
    rw [List.mem_append, List.mem_singleton, not_or] at h
    rw [endingBackslashes_concat, if_neg fun e => h.2 e.symm]

section Attribute

/-- The mode after an attribute value, up to its closing quotation mark. -/
def attributeMode (text : List Char) : Mode :=
  if endingBackslashes text % 2 = 1 then .escaped '"' else .quoted '"'

theorem toList_escapeAttribute (s : String) :
    (escapeAttribute s).toList = s.toList.flatMap fun c => (attributeChar c).toList := by
  simp [escapeAttribute, replaceChars]

/-- Whatever is not a backslash takes the string on, also after a backslash. -/
private theorem run?_attributeChar {c : Char} (hc : c ≠ '\\') (depth : Nat) {mode : Mode}
    (hmode : mode = .quoted '"' ∨ mode = .escaped '"') :
    Reading.run? ⟨mode, depth⟩ (attributeChar c).toList = some ⟨.quoted '"', depth⟩ := by
  unfold attributeChar
  split
  · rcases hmode with rfl | rfl <;> rfl
  split
  · rcases hmode with rfl | rfl <;> rfl
  · next hquote hbreak =>
    rw [Char.toString, String.toList_singleton, Reading.run?_cons]
    rcases hmode with rfl | rfl
    · simp [Reading.step?, Mode.readsCode, Mode.after, hc, hquote, hbreak]
    · rfl

theorem run?_escapeAttribute (s : String) (depth : Nat) :
    Reading.run? ⟨.quoted '"', depth⟩ (escapeAttribute s).toList =
      some ⟨attributeMode s.toList, depth⟩ := by
  rw [toList_escapeAttribute]
  induction s.toList using List.reverseRecOn with
  | nil => rfl
  | append_singleton text c ih =>
    rw [List.flatMap_append, Reading.run?_append, ih, Option.bind_some, List.flatMap_singleton]
    unfold attributeMode
    rw [endingBackslashes_concat]
    by_cases hc : c = '\\'
    · subst hc
      rw [if_pos rfl]
      by_cases hodd : endingBackslashes text % 2 = 1
      · rw [if_pos hodd, if_neg (by omega)]
        rfl
      · rw [if_neg hodd, if_pos (by omega)]
        rfl
    · rw [if_neg hc]
      apply run?_attributeChar hc
      split
      · exact .inr rfl
      · exact .inl rfl

/-- An escaped value holds neither its quotation mark nor a line break. -/
theorem notMem_escapeAttribute {mark : Char} (hmark : mark = '"' ∨ mark = '\n') (s : String) :
    mark ∉ (escapeAttribute s).toList := by
  rw [toList_escapeAttribute, List.mem_flatMap]
  rintro ⟨c, _, hc⟩
  unfold attributeChar at hc
  split at hc
  · rcases hmark with rfl | rfl <;> revert hc <;> decide
  split at hc
  · rcases hmark with rfl | rfl <;> revert hc <;> decide
  · next hquote hbreak =>
    rw [Char.toString, String.toList_singleton, List.mem_singleton] at hc
    subst hc
    exact hmark.elim hquote hbreak

/-- An attribute value that does not end in an escape leaves its string open for the mark. -/
theorem escapeAttribute_inside {s : String} (h : ¬ EndsInEscape s) :
    Inside '"' (escapeAttribute s).toList := by
  have heven : ¬ endingBackslashes s.toList % 2 = 1 := h
  rw [Inside, Reading.calmRun?_eq_run? (notMem_escapeAttribute (.inr rfl) s), run?_escapeAttribute,
    attributeMode, if_neg heven]

end Attribute

section RunningText

/-- What stands for a character begins with the character itself, a brace or an ampersand. -/
theorem textChar_head (c : Char) (next : Option Char) :
    ∃ first rest, (textChar c next).toList = first :: rest ∧
      (first = c ∨ first = '{' ∨ first = '&') := by
  unfold textChar
  repeat' split
  all_goals first
    | exact ⟨_, _, rfl, .inr (.inl rfl)⟩
    | exact ⟨_, _, rfl, .inr (.inr rfl)⟩
    | exact ⟨_, _, String.toList_singleton _, .inl rfl⟩

private theorem textChar_level {c : Char} (hslash : c ≠ '/') (next : Option Char) :
    Level (textChar c next).toList := by
  unfold textChar
  split
  · rfl
  split
  · rfl
  split
  · rfl
  split
  · rfl
  split
  · rfl
  split
  · rfl
  split
  · rfl
  · next hopen hclose _ _ hdouble hsingle hgrave =>
    have hinert : isInert c := by simp [isInert, *]
    rw [if_neg (by simp [hslash]), Char.toString, String.toList_singleton]
    exact Level.of_inert (by simpa using hinert)

/-- Running text leads from code to code, whatever characters it holds. After a slash at its end a
comment could still begin. -/
theorem exists_calmRun?_escapeTextChars (text : List Char) : ∃ mode, (mode = .code ∨ mode = .slash) ∧
    Reading.calmRun? ⟨.code, 0⟩ (escapeTextChars text) = some ⟨mode, 0⟩ := by
  induction text with
  | nil => exact ⟨.code, .inl rfl, rfl⟩
  | cons c rest ih =>
    have hlevel (h : Level (textChar c rest.head?).toList) : ∃ mode,
        (mode = .code ∨ mode = .slash) ∧
          Reading.calmRun? ⟨.code, 0⟩ (escapeTextChars (c :: rest)) = some ⟨mode, 0⟩ := by
      obtain ⟨mode, hmode, hrest⟩ := ih
      refine ⟨mode, hmode, ?_⟩
      rw [escapeTextChars, Reading.calmRun?_append, h]
      exact hrest
    by_cases hslash : c = '/'
    · subst hslash
      by_cases hcomment : rest.head? = some '/' ∨ rest.head? = some '*'
      · have hexpr : textChar '/' rest.head? = "\x7b'/'\x7d" := by
          rcases hcomment with e | e <;> rw [e] <;> rfl
        exact hlevel (hexpr ▸ rfl)
      · -- The slash stands for itself, and what follows it opens no comment.
        have hself : textChar '/' rest.head? = "/" := by
          simp [textChar, not_or.mp hcomment]
        cases rest with
        | nil => exact ⟨.slash, .inr rfl, by rw [escapeTextChars, hself]; rfl⟩
        | cons next rest =>
          obtain ⟨first, more, hfirst, hcases⟩ := textChar_head next rest.head?
          simp only [List.head?_cons, Option.some.injEq, not_or] at hcomment
          have hopens : first ≠ '/' ∧ first ≠ '*' := by
            rcases hcases with rfl | rfl | rfl
            · exact hcomment
            · decide
            · decide
          obtain ⟨mode, hmode, hrest⟩ := ih
          refine ⟨mode, hmode, ?_⟩
          rw [escapeTextChars, hfirst] at hrest
          rw [escapeTextChars, hself, escapeTextChars, hfirst]
          exact (Reading.calmRun?_slash hopens.1 hopens.2 ⟨.code, 0⟩ rfl _).trans hrest
    · exact hlevel (textChar_level hslash _)

/-- Running text is level in front of a tag. -/
theorem escapeTextChars_level {tail : List Char} (h : Level ('<' :: tail)) (text : List Char) :
    Level (escapeTextChars text ++ '<' :: tail) := by
  obtain ⟨mode, hmode, hrun⟩ := exists_calmRun?_escapeTextChars text
  rw [Level, Passes, Reading.calmRun?_append, hrun]
  rcases hmode with rfl | rfl
  · exact h
  · exact (Reading.calmRun?_slash (by decide) (by decide) ⟨.code, 0⟩ rfl tail).symm.trans h

end RunningText

end Pagewright
