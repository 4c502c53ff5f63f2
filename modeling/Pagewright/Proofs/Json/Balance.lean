import Pagewright.Json.Writer
import Pagewright.Proofs.Source.Balance

/-! Documents as text are level: their braces match, and their strings stay closed. -/

namespace Pagewright

/-- Digits, signs, points and exponent marks. -/
def isNumeralChar (c : Char) : Bool := c.isDigit || c = '-' || c = '+' || c = '.' || c = 'e'

/-- A text of characters of numbers alone. -/
def IsNumeral (text : List Char) : Prop := ∀ c ∈ text, isNumeralChar c

theorem isInert_of_isNumeralChar {c : Char} (h : isNumeralChar c) : isInert c := by
  have hne (d : Char) (hd : isNumeralChar d = false) : c ≠ d := fun e => by
    rw [e, hd] at h
    cases h
  simp [isInert, hne '"' rfl, hne '\'' rfl, hne '\x60' rfl, hne '/' rfl, hne '{' rfl, hne '}' rfl]

instance (text : List Char) : Decidable (IsNumeral text) :=
  List.decidableBAll _ text

namespace IsNumeral

variable {a b text : List Char}

theorem level (h : IsNumeral text) : Level text :=
  Level.of_inert fun c hc => isInert_of_isNumeralChar (h c hc)

theorem append (ha : IsNumeral a) (hb : IsNumeral b) : IsNumeral (a ++ b) := by
  intro c hc
  rcases List.mem_append.mp hc with hc | hc
  · exact ha c hc
  · exact hb c hc

theorem sublist (h : IsNumeral text) (hs : a.Sublist text) : IsNumeral a :=
  fun c hc => h c (hs.subset hc)

theorem toDigits (n : Nat) : IsNumeral (Nat.toDigits 10 n) := by
  intro c hc
  have hdigit := Nat.isDigit_of_mem_toDigits (by decide) (by decide) hc
  simp [isNumeralChar, hdigit]

theorem zeros (n : Nat) : IsNumeral (Number.zeros n) := by
  intro c hc
  rw [List.eq_of_mem_replicate hc]
  rfl

theorem toString_nat (n : Nat) : IsNumeral (toString n).toList := by
  rw [Nat.toString_eq_ofList_toDigits, String.toList_ofList]
  exact toDigits n

theorem toString_int (i : Int) : IsNumeral (toString i).toList := by
  have hsign : IsNumeral "-".toList := by decide
  rw [Int.toString_eq_repr, Int.repr_eq_if]
  split
  · exact toString_nat i.toNat
  · rw [String.toList_append]
    exact hsign.append (toString_nat (-i).toNat)

theorem positionalText (marksWhole : Bool) {digits : List Char} (h : IsNumeral digits)
    (point : Int) : IsNumeral (Number.positionalText marksWhole digits point) := by
  have hlead : IsNumeral ['0', '.'] := by decide
  have hpoint : IsNumeral ['.'] := by decide
  unfold Number.positionalText
  split
  · exact (hlead.append (zeros _)).append h
  split
  · refine (h.append (zeros _)).append ?_
    cases marksWhole <;> decide
  · exact (h.sublist (List.take_sublist _ _)).append
      (hpoint.append (h.sublist (List.drop_sublist _ _)))

theorem exponentText {digits : List Char} (h : IsNumeral digits) (exponent : Int) :
    IsNumeral (Number.exponentText digits exponent) := by
  have hpoint : IsNumeral ['.'] := by decide
  have hrest : IsNumeral (digits.drop 1) := h.sublist (List.drop_sublist _ _)
  have hmark : IsNumeral ['e', if exponent < 0 then '-' else '+'] := by split <;> decide
  refine ((IsNumeral.append (h.sublist (List.take_sublist _ _)) ?_).append hmark).append
    (toDigits exponent.natAbs)
  split
  · decide
  · exact hpoint.append hrest

theorem finiteText (layout : Number.Layout) (n : Number) :
    IsNumeral (n.finiteText layout).toList := by
  have hsign : IsNumeral (if n.isNegative then ['-'] else []) := by split <;> decide
  rw [Number.finiteText, String.toList_ofList]
  refine hsign.append ?_
  unfold Number.decimalText
  extract_lets digits point plain
  split
  · exact positionalText layout.marksWhole (toDigits _) _
  · exact exponentText (toDigits _) _

end IsNumeral

namespace Json

private theorem escapeChar_inside (c : Char) : Inside '"' (escapeChar c) := by
  have hdigit : ∀ n < 16, Inside '"' [Nat.digitChar n] := by decide
  unfold escapeChar
  split
  · rfl
  split
  · rfl
  split
  · rfl
  split
  · rfl
  split
  · rfl
  split
  · rfl
  split
  · rfl
  split
  · next hcontrol =>
    have hstart : Inside '"' ['\\', 'u', '0', '0'] := rfl
    have hfirst := hdigit (c.toNat / 16) (by omega)
    have hsecond := hdigit (c.toNat % 16) (by omega)
    exact (hstart.append hfirst).append hsecond
  · next hquote hbackslash _ _ hbreak _ _ _ => exact Inside.char hquote hbackslash hbreak

theorem stringText_level (s : String) : Level (stringText s).toList := by
  rw [stringText, String.toList_ofList]
  exact Inside.level (.inl rfl) (Inside.flatMap escapeChar_inside s.toList)

/-- A property of texts that goes from the pieces of a document to the whole. -/
structure Composes (good : List Char → Prop) : Prop where
  append {a b : List Char} : good a → good b → good (a ++ b)
  word : ∀ text ∈ ["", "null", "true", "false", "[", "]", ",", ":"], good text.toList
  numeral {text : List Char} : IsNumeral text → good text
  string (s : String) : good (stringText s).toList
  braces {text : List Char} : good text → good ('{' :: text ++ ['}'])

section Composes

variable {good : List Char → Prop} (h : Composes good)
include h

mutual

theorem Composes.compact (j : Json) : good j.compact.toList := by
  cases j with
  | null | unusable => exact h.word "null" (by decide)
  | bool b =>
    cases b with
    | false => exact h.word "false" (by decide)
    | true => exact h.word "true" (by decide)
  | int i => exact h.numeral (IsNumeral.toString_int i)
  | number n =>
    rw [Json.compact, numberText]
    split
    · exact h.numeral (IsNumeral.finiteText Number.documentLayout n)
    · exact h.word "null" (by decide)
  | string s => exact h.string s
  | array items =>
    rw [Json.compact, String.toList_append, String.toList_append]
    exact h.append (h.append (h.word "[" (by decide)) (Composes.compactItems items))
      (h.word "]" (by decide))
  | object members =>
    rw [Json.compact, String.toList_append, String.toList_append]
    exact h.braces (Composes.compactMembers members)

theorem Composes.compactItems (items : List Json) : good (Json.compactItems items).toList := by
  match items with
  | [] => exact h.word "" (by decide)
  | [item] => exact Composes.compact item
  | item :: next :: rest =>
    rw [Json.compactItems, String.toList_append, String.toList_append]
    · exact h.append (h.append (Composes.compact item) (h.word "," (by decide)))
        (Composes.compactItems (next :: rest))
    · exact List.cons_ne_nil next rest

theorem Composes.compactMembers (members : List (String × Json)) :
    good (Json.compactMembers members).toList := by
  have hmember (key : String) {value : Json} (hvalue : good value.compact.toList) :
      good (stringText key ++ ":" ++ value.compact).toList := by
    rw [String.toList_append, String.toList_append]
    exact h.append (h.append (h.string key) (h.word ":" (by decide))) hvalue
  match members with
  | [] => exact h.word "" (by decide)
  | [(key, value)] => exact hmember key (Composes.compact value)
  | (key, value) :: next :: rest =>
    rw [Json.compactMembers, String.toList_append, String.toList_append]
    · exact h.append (h.append (hmember key (Composes.compact value)) (h.word "," (by decide)))
        (Composes.compactMembers (next :: rest))
    · exact List.cons_ne_nil next rest

end

end Composes

/-- Wherever a document stands in code, it is level. -/
theorem compact_level (j : Json) : Level j.compact.toList :=
  Composes.compact ⟨Level.append, by decide, IsNumeral.level, stringText_level, Level.braces⟩ j

section LineEnds

variable {lineEnd : Char} (h : lineEnd = '\n' ∨ lineEnd = '\r')

include h

private theorem lineEnd_notMem_escapeChar (c : Char) : lineEnd ∉ escapeChar c := by
  have hfixed : ∀ text ∈ [['\\', '"'], ['\\', '\\'], ['\\', 'b'], ['\\', 'f'], ['\\', 'n'],
      ['\\', 'r'], ['\\', 't']], lineEnd ∉ text := by
    rcases h with rfl | rfl <;> decide
  have hdigit : ∀ n < 16, lineEnd ≠ Nat.digitChar n := by
    rcases h with rfl | rfl <;> decide
  have hstart : lineEnd ∉ ['\\', 'u', '0', '0'] := by
    rcases h with rfl | rfl <;> decide
  by_cases hnamed : c ∈ ['"', '\\', '\x08', '\x0c', '\n', '\r', '\t']
  · simp only [List.mem_cons, List.not_mem_nil, or_false] at hnamed
    rcases hnamed with rfl | rfl | rfl | rfl | rfl | rfl | rfl <;> exact hfixed _ (by decide)
  · simp only [List.mem_cons, List.not_mem_nil, or_false, not_or] at hnamed
    simp only [escapeChar, hnamed, if_false]
    split
    · next hcontrol =>
      have hfirst := hdigit (c.toNat / 16) (by omega)
      have hsecond := hdigit (c.toNat % 16) (by omega)
      simp only [List.mem_cons, List.not_mem_nil, or_false, not_or] at hstart ⊢
      exact ⟨hstart.1, hstart.2.1, hstart.2.2.1, hstart.2.2.2, hfirst, hsecond⟩
    · obtain ⟨-, -, -, -, hline, hreturn, -⟩ := hnamed
      rw [List.mem_singleton]
      rintro rfl
      exact h.elim hline hreturn

private theorem lineEnd_notMem_stringText (s : String) : lineEnd ∉ (stringText s).toList := by
  have hquote : lineEnd ≠ '"' := by rcases h with rfl | rfl <;> decide
  rw [stringText, String.toList_ofList]
  simp [lineEnd_notMem_escapeChar h, hquote]

/-- A compact document holds neither line feeds nor carriage returns. -/
theorem lineEnd_notMem_compact (j : Json) : lineEnd ∉ j.compact.toList := by
  have hnumeral : isNumeralChar lineEnd = false := by rcases h with rfl | rfl <;> decide
  have hcomposes : Composes fun text => lineEnd ∉ text :=
    { append := fun ha hb hc => (List.mem_append.mp hc).elim ha hb
      word := by rcases h with rfl | rfl <;> decide
      numeral := fun h hc => by simpa [hnumeral] using h _ hc
      string := lineEnd_notMem_stringText h
      braces := by rcases h with rfl | rfl <;> simp }
  exact hcomposes.compact j

end LineEnds

/-- A compact document stands on one line. -/
theorem break_notMem_compact (j : Json) : '\n' ∉ j.compact.toList :=
  lineEnd_notMem_compact (.inl rfl) j

end Json

end Pagewright
