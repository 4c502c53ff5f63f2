import Mathlib.Data.List.TakeWhile
import Pagewright.Json.Reader
import Pagewright.Json.Writer
import Pagewright.Proofs.Json.Balance
import Pagewright.Proofs.Json.Equality

/-! Reading the numerals of a document: what follows a numeral does not change how it is read, and
the numeral of an integer is read as this integer. -/

namespace Pagewright

namespace Json

/-- What may follow a value inside a document without blanks, or its end. -/
inductive EndsToken : List Char → Prop
  | done : EndsToken []
  | comma (after : List Char) : EndsToken (',' :: after)
  | bracket (after : List Char) : EndsToken (']' :: after)
  | brace (after : List Char) : EndsToken ('}' :: after)

private def splitMinus : List Char → Bool × List Char
  | '-' :: rest => (true, rest)
  | rest => (false, rest)

private def splitWhole : List Char → List Char × List Char
  | '0' :: rest => (['0'], rest)
  | rest => splitDigits rest

private def startsWithDigit : List Char → Bool
  | c :: _ => c.isDigit
  | [] => false

private def splitFraction? : List Char → Option (List Char × List Char)
  | '.' :: rest =>
    let (digits, rest) := splitDigits rest
    if digits = [] then none else some (digits, rest)
  | rest => some ([], rest)

private def readExponent? (negative : Bool) (whole fraction rest : List Char) :
    Option (Numeral × List Char) :=
  match rest with
  | c :: after =>
    if c = 'e' || c = 'E' then
      let (sign, after) := splitSign after
      let (digits, after) := splitDigits after
      let e : Int := digitsValue digits
      if digits = [] then none
      else some (⟨negative, whole, fraction, some (if sign = ['-'] then -e else e)⟩, after)
    else some (⟨negative, whole, fraction, none⟩, rest)
  | [] => some (⟨negative, whole, fraction, none⟩, [])

/-- A numeral is read part by part. -/
private theorem readNumeral?_eq (cs : List Char) : readNumeral? cs =
    let (negative, rest) := splitMinus cs
    let (whole, rest) := splitWhole rest
    if whole = [] || startsWithDigit rest then none
    else (splitFraction? rest).bind fun (fraction, rest) =>
      readExponent? negative whole fraction rest :=
  rfl

section Append

variable {rest : List Char} (h : EndsToken rest)

include h

private theorem startsWithDigit_append (cs : List Char) :
    startsWithDigit (cs ++ rest) = startsWithDigit cs := by
  cases cs with
  | nil => cases h <;> rfl
  | cons c after => rfl

private theorem splitDigits_append (cs : List Char) :
    splitDigits (cs ++ rest) = ((splitDigits cs).1, (splitDigits cs).2 ++ rest) := by
  induction cs with
  | nil => cases h <;> rfl
  | cons c after ih =>
    simp only [splitDigits, Prod.mk.injEq] at ih ⊢
    rw [List.cons_append, List.takeWhile_cons, List.takeWhile_cons, List.dropWhile_cons,
      List.dropWhile_cons]
    split
    · exact ⟨congrArg _ ih.1, ih.2⟩
    · exact ⟨rfl, rfl⟩

private theorem splitMinus_append (cs : List Char) :
    splitMinus (cs ++ rest) = ((splitMinus cs).1, (splitMinus cs).2 ++ rest) := by
  cases cs with
  | nil => cases h <;> rfl
  | cons c after =>
    by_cases hc : c = '-'
    · subst hc
      rfl
    · simp [splitMinus, hc]

private theorem splitWhole_append (cs : List Char) :
    splitWhole (cs ++ rest) = ((splitWhole cs).1, (splitWhole cs).2 ++ rest) := by
  cases cs with
  | nil => cases h <;> rfl
  | cons c after =>
    by_cases hc : c = '0'
    · subst hc
      rfl
    · have digits := splitDigits_append h (c :: after)
      simpa [splitWhole, hc] using digits

private theorem splitFraction?_append (cs : List Char) :
    splitFraction? (cs ++ rest) =
      (splitFraction? cs).map fun (fraction, after) => (fraction, after ++ rest) := by
  cases cs with
  | nil => cases h <;> rfl
  | cons c after =>
    by_cases hc : c = '.'
    · subst hc
      have digits := splitDigits_append h after
      simp only [List.cons_append, splitFraction?, digits]
      split <;> rfl
    · simp [splitFraction?, hc]

private theorem splitSign_append (cs : List Char) :
    splitSign (cs ++ rest) = ((splitSign cs).1, (splitSign cs).2 ++ rest) := by
  cases cs with
  | nil => cases h <;> rfl
  | cons c after =>
    by_cases hplus : c = '+'
    · subst hplus
      rfl
    by_cases hminus : c = '-'
    · subst hminus
      rfl
    · simp [splitSign, hplus, hminus]

private theorem readExponent?_append (negative : Bool) (whole fraction cs : List Char) :
    readExponent? negative whole fraction (cs ++ rest) =
      (readExponent? negative whole fraction cs).map fun (n, after) => (n, after ++ rest) := by
  cases cs with
  | nil => cases h <;> rfl
  | cons c after =>
    have sign := splitSign_append h after
    have digits := splitDigits_append h (splitSign after).2
    simp only [List.cons_append, readExponent?, sign, digits]
    split
    · split <;> rfl
    · rfl

/-- What follows a numeral is left as the rest. -/
theorem readNumeral?_append (cs : List Char) :
    readNumeral? (cs ++ rest) = (readNumeral? cs).map fun (n, after) => (n, after ++ rest) := by
  rw [readNumeral?_eq, readNumeral?_eq, splitMinus_append h]
  dsimp only
  rw [splitWhole_append h]
  dsimp only
  rw [startsWithDigit_append h]
  split
  · rfl
  · rw [splitFraction?_append h, Option.bind_map, Option.map_bind]
    refine congrArg _ (funext fun (fraction, after) => ?_)
    exact readExponent?_append h _ _ fraction after

end Append

section Suffix

private theorem splitMinus_suffix (cs : List Char) : (splitMinus cs).2 <:+ cs := by
  unfold splitMinus
  split
  · exact List.suffix_cons _ _
  · exact List.suffix_rfl

private theorem splitWhole_suffix (cs : List Char) : (splitWhole cs).2 <:+ cs := by
  unfold splitWhole
  split
  · exact List.suffix_cons _ _
  · exact List.dropWhile_suffix _

private theorem splitFraction?_suffix {cs fraction after : List Char}
    (h : splitFraction? cs = some (fraction, after)) : after <:+ cs := by
  unfold splitFraction? at h
  split at h
  · next rest =>
    dsimp only at h
    split at h
    · cases h
    · obtain ⟨_, rfl⟩ := Prod.mk.inj (Option.some.inj h)
      exact (List.dropWhile_suffix _).trans (List.suffix_cons _ _)
  · obtain ⟨_, rfl⟩ := Prod.mk.inj (Option.some.inj h)
    exact List.suffix_rfl

private theorem splitSign_suffix (cs : List Char) : (splitSign cs).2 <:+ cs := by
  unfold splitSign
  split
  · exact List.suffix_cons _ _
  · exact List.suffix_cons _ _
  · exact List.suffix_rfl

private theorem readExponent?_suffix {negative : Bool} {whole fraction cs after : List Char}
    {n : Numeral} (h : readExponent? negative whole fraction cs = some (n, after)) :
    after <:+ cs := by
  unfold readExponent? at h
  split at h
  · next c rest =>
    dsimp only at h
    split at h
    · split at h
      · cases h
      · obtain ⟨_, rfl⟩ := Prod.mk.inj (Option.some.inj h)
        refine List.IsSuffix.trans (List.dropWhile_suffix _) ?_
        exact (splitSign_suffix rest).trans (List.suffix_cons c rest)
    · obtain ⟨_, rfl⟩ := Prod.mk.inj (Option.some.inj h)
      exact List.suffix_rfl
  · obtain ⟨_, rfl⟩ := Prod.mk.inj (Option.some.inj h)
    exact List.suffix_rfl

theorem readNumeral?_suffix {cs after : List Char} {n : Numeral}
    (h : readNumeral? cs = some (n, after)) : after <:+ cs := by
  rw [readNumeral?_eq] at h
  dsimp only at h
  split at h
  · cases h
  · obtain ⟨⟨fraction, rest⟩, hfraction, hexponent⟩ := Option.bind_eq_some_iff.mp h
    have whole := (splitWhole_suffix (splitMinus cs).2).trans (splitMinus_suffix cs)
    exact ((readExponent?_suffix hexponent).trans (splitFraction?_suffix hfraction)).trans whole

end Suffix

theorem skipSpace_cons {c : Char} (h : isSpace c = false) (cs : List Char) :
    skipSpace (c :: cs) = c :: cs := by
  simp [skipSpace, h]

section Start

variable {c : Char} (hc : isNumeralChar c)

include hc

theorem ne_of_isNumeralChar (d : Char) (hd : isNumeralChar d = false) : c ≠ d := by
  rintro rfl
  rw [hd] at hc
  cases hc

theorem isSpace_of_isNumeralChar : isSpace c = false := by
  have hne := ne_of_isNumeralChar hc
  simp [isSpace, hne ' ' rfl, hne '\t' rfl, hne '\n' rfl, hne '\r' rfl]

/-- A value that begins with a character of numerals is read as a numeral. -/
theorem readValue?_numeral (fuel : Nat) (cs : List Char) : readValue? (fuel + 1) (c :: cs) =
    (readNumeral? (c :: cs)).map fun (n, rest) => (n.toJson, rest) := by
  have hne := ne_of_isNumeralChar hc
  rw [readValue?, skipSpace_cons (isSpace_of_isNumeralChar hc)]
  split
  · next h => exact absurd (List.cons.inj h).1 (hne 'n' rfl)
  · next h => exact absurd (List.cons.inj h).1 (hne 't' rfl)
  · next h => exact absurd (List.cons.inj h).1 (hne 'f' rfl)
  · next h => exact absurd (List.cons.inj h).1 (hne '"' rfl)
  · next h => exact absurd (List.cons.inj h).1 (hne '[' rfl)
  · next h => exact absurd (List.cons.inj h).1 (hne '{' rfl)
  · rfl

end Start

section Parts

/-- A leading zero stands alone. -/
private theorem toDigits_zero {n : Nat} {rest : List Char} (h : Nat.toDigits 10 n = '0' :: rest) :
    rest = [] := by
  have value (k : Nat) : Nat.ofDigitChars 10 (Nat.toDigits 10 k) 0 = k :=
    Nat.ofDigitChars_toDigits (by decide) (by decide)
  induction n using Nat.strongRecOn generalizing rest with
  | ind n ih =>
    by_cases hsmall : n < 10
    · rw [Nat.toDigits_of_lt_base hsmall] at h
      exact (List.cons.inj h).2.symm
    · rw [Nat.toDigits_of_base_le (by decide) (by omega)] at h
      cases hlead : Nat.toDigits 10 (n / 10) with
      | nil => exact absurd hlead Nat.toDigits_ne_nil
      | cons c tail =>
        rw [hlead] at h
        obtain rfl : c = '0' := (List.cons.inj h).1
        have short := ih (n / 10) (by omega) hlead
        have zero := value (n / 10)
        rw [hlead, short] at zero
        have none : 0 = n / 10 := zero
        omega

/-- Digits that may stand in front of a point: a leading zero stands alone. -/
structure IsWhole (cs : List Char) : Prop where
  full : cs ≠ []
  digits : ∀ c ∈ cs, c.isDigit
  zero : ∀ rest, cs = '0' :: rest → rest = []

theorem isDigit_toDigits (n : Nat) : ∀ c ∈ Nat.toDigits 10 n, c.isDigit := fun c hc =>
  Nat.isDigit_of_mem_toDigits (by decide) (by decide) hc

theorem IsWhole.toDigits (n : Nat) : IsWhole (Nat.toDigits 10 n) :=
  ⟨Nat.toDigits_ne_nil, isDigit_toDigits n, fun _ h => toDigits_zero h⟩

private theorem splitDigits_stop {cs rest : List Char} (hcs : ∀ c ∈ cs, c.isDigit)
    (hrest : startsWithDigit rest = false) : splitDigits (cs ++ rest) = (cs, rest) := by
  refine splitDigits_of_digits hcs ?_
  cases rest with
  | nil => simp
  | cons c after => simpa [startsWithDigit] using hrest

private theorem IsWhole.splitWhole {cs rest : List Char} (h : IsWhole cs)
    (hrest : startsWithDigit rest = false) : splitWhole (cs ++ rest) = (cs, rest) := by
  obtain ⟨full, digits, zero⟩ := h
  cases cs with
  | nil => exact absurd rfl full
  | cons c after =>
    by_cases hc : c = '0'
    · subst hc
      rw [zero after rfl]
      rfl
    · have split := splitDigits_stop digits hrest
      simpa [Json.splitWhole, hc] using split

private theorem IsWhole.splitMinus {cs : List Char} (h : IsWhole cs) (rest : List Char) :
    splitMinus (cs ++ rest) = (false, cs ++ rest) := by
  obtain ⟨full, digits, -⟩ := h
  cases cs with
  | nil => exact absurd rfl full
  | cons c after =>
    have hc : c ≠ '-' := by
      rintro rfl
      exact absurd (digits '-' List.mem_cons_self) (by decide)
    simp [Json.splitMinus, hc]

/-- An exponent mark with a sign and digits. -/
def IsExponent (cs : List Char) : Prop :=
  ∃ sign digits, cs = 'e' :: sign :: digits ∧ (sign = '-' ∨ sign = '+') ∧ digits ≠ [] ∧
    ∀ c ∈ digits, c.isDigit

private theorem readExponent?_exponent {negative : Bool} {whole fraction cs : List Char}
    (h : cs = [] ∨ IsExponent cs) :
    ∃ n, readExponent? negative whole fraction cs = some (n, []) := by
  rcases h with rfl | ⟨sign, digits, rfl, hsign, full, all⟩
  · exact ⟨_, rfl⟩
  · have split : splitDigits digits = (digits, []) := by
      have stop : startsWithDigit [] = false := rfl
      have split := splitDigits_stop all stop
      rwa [List.append_nil] at split
    have signed : splitSign (sign :: digits) = ([sign], digits) := by
      rcases hsign with rfl | rfl <;> rfl
    refine ⟨⟨negative, whole, fraction, some (if [sign] = ['-'] then -(digitsValue digits : Int)
      else digitsValue digits)⟩, ?_⟩
    simp [readExponent?, signed, split, full]

variable (negative : Bool) {whole fraction exponent : List Char} (hwhole : IsWhole whole)
  (hfraction : ∀ c ∈ fraction, c.isDigit) (hexponent : exponent = [] ∨ IsExponent exponent)

include hwhole hfraction hexponent

private theorem readNumeral?_eq_readExponent? :
    readNumeral? ((if negative then ['-'] else []) ++ (whole ++
        ((if fraction = [] then [] else '.' :: fraction) ++ exponent))) =
      readExponent? negative whole fraction exponent := by
  have hstart : startsWithDigit exponent = false := by
    rcases hexponent with rfl | ⟨_, _, rfl, -⟩ <;> rfl
  have hrest : startsWithDigit ((if fraction = [] then [] else '.' :: fraction) ++ exponent) =
      false := by
    split
    · exact hstart
    · rfl
  have hsplit : splitFraction? ((if fraction = [] then [] else '.' :: fraction) ++ exponent) =
      some (fraction, exponent) := by
    split
    · next hnone =>
      rw [hnone]
      rcases hexponent with rfl | ⟨_, _, rfl, -⟩ <;> rfl
    · next hsome =>
      have split := splitDigits_stop hfraction hstart
      simp [splitFraction?, split, hsome]
  have hminus (rest : List Char) : Json.splitMinus ((if negative then ['-'] else []) ++
      (whole ++ rest)) = (negative, whole ++ rest) := by
    cases negative with
    | true => rfl
    | false => exact hwhole.splitMinus rest
  rw [readNumeral?_eq, hminus]
  dsimp only
  rw [hwhole.splitWhole hrest]
  simp only [hwhole.full, hrest, decide_false, Bool.or_self, Bool.false_eq_true, if_false]
  rw [hsplit]
  rfl

/-- A whole part, a fraction behind a point, and an exponent are a numeral. -/
theorem readNumeral?_parts :
    ∃ n, readNumeral? ((if negative then ['-'] else []) ++ (whole ++
      ((if fraction = [] then [] else '.' :: fraction) ++ exponent))) = some (n, []) := by
  rw [readNumeral?_eq_readExponent? negative hwhole hfraction hexponent]
  exact readExponent?_exponent hexponent

end Parts

section Integers

/-- The numeral of an integer, whether or not it fits 64 bits. -/
theorem readNumeral?_toString (i : Int) : readNumeral? (toString i).toList =
    some (⟨i < 0, Nat.toDigits 10 i.natAbs, [], none⟩, []) := by
  have text (k : Nat) : k.repr.toList = Nat.toDigits 10 k := by
    rw [← Nat.toString_eq_repr, Nat.toString_eq_ofList_toDigits, String.toList_ofList]
  have signed : (toString i).toList = (if decide (i < 0) then ['-'] else []) ++
      (Nat.toDigits 10 i.natAbs ++ ((if ([] : List Char) = [] then [] else ['.']) ++ [])) := by
    rw [Int.toString_eq_repr, Int.repr_eq_if, if_pos rfl, List.append_nil, List.append_nil]
    split
    · next hpos =>
      have magnitude : i.toNat = i.natAbs := by omega
      rw [if_neg (by simpa using hpos), text, magnitude, List.nil_append]
    · next hneg =>
      have magnitude : (-i).toNat = i.natAbs := by omega
      rw [if_pos (by simpa using hneg), String.toList_append, text, magnitude]
      rfl
  have digits : ∀ c ∈ ([] : List Char), c.isDigit := List.forall_mem_nil _
  rw [signed]
  exact readNumeral?_eq_readExponent? (i < 0) (IsWhole.toDigits i.natAbs) digits (.inl rfl)

/-- The numeral of an integer is read as this integer, if it fits 64 bits. -/
theorem readNumeral?_int {i : Int} (hleast : leastInt64 ≤ i) (hbound : i < wordBound) :
    ∃ n, readNumeral? (toString i).toList = some (n, []) ∧ n.toJson = .int i := by
  refine ⟨_, readNumeral?_toString i, ?_⟩
  have value : digitsValue (Nat.toDigits 10 i.natAbs) = i.natAbs :=
    Nat.ofDigitChars_toDigits (by decide) (by decide)
  have magnitude : i = i.natAbs ∨ i = -(i.natAbs : Int) := Int.natAbs_eq i
  generalize i.natAbs = k at value magnitude ⊢
  by_cases hneg : i < 0
  · have signed : -(k : Int) = i := by omega
    have hzero : k ≠ 0 := by omega
    simp [Numeral.toJson, value, hneg, signed, hzero, hleast, hbound]
  · have unsigned : (k : Int) = i := by omega
    simp [Numeral.toJson, value, hneg, unsigned, hleast, hbound]

end Integers

/-- The text is the numeral of a value. -/
structure NumeralOf (j : Json) (text : List Char) : Prop where
  numeral : IsNumeral text
  read : ∃ n, readNumeral? text = some (n, []) ∧ n.toJson = j

theorem NumeralOf.int {i : Int} (hleast : leastInt64 ≤ i) (hbound : i < wordBound) :
    NumeralOf (.int i) (compact (.int i)).toList :=
  ⟨IsNumeral.toString_int i, readNumeral?_int hleast hbound⟩

/-- Wherever it stands, a numeral is read as its value. -/
theorem NumeralOf.readValue? {j : Json} {text rest : List Char} (h : NumeralOf j text)
    (hrest : EndsToken rest) (fuel : Nat) :
    readValue? (fuel + 1) (text ++ rest) = some (j, rest) := by
  obtain ⟨n, hn, rfl⟩ := h.read
  cases text with
  | nil => cases hn
  | cons c cs =>
    have hread := readNumeral?_append hrest (c :: cs)
    rw [List.cons_append, readValue?_numeral (h.numeral c List.mem_cons_self), ← List.cons_append,
      hread, hn]
    rfl

end Json

/-- The text that is written for a number is read as this number. -/
def Number.ReadsBack (n : Number) : Prop := Json.parse? (Json.number n).compact = some (.number n)

instance (n : Number) : Decidable n.ReadsBack :=
  inferInstanceAs (Decidable (Json.parse? (Json.number n).compact = some (.number n)))

theorem Number.ReadsBack.numeralOf {n : Number} (h : n.ReadsBack) :
    Json.NumeralOf (.number n) (Json.number n).compact.toList := by
  have hfinite : n.isFinite := by
    cases hn : n.isFinite with
    | true => rfl
    | false =>
      have null : Json.compact (.number n) = "null" := by simp [Json.compact, Json.numberText, hn]
      rw [Number.ReadsBack, null] at h
      have read : Json.parse? "null" = some .null := by decide
      rw [read] at h
      cases h
  have text : (Json.number n).compact = n.finiteText documentLayout := by
    simp [Json.compact, Json.numberText, hfinite]
  have numeral : IsNumeral (Json.number n).compact.toList := by
    rw [text]
    exact IsNumeral.finiteText documentLayout n
  refine ⟨numeral, ?_⟩
  rw [Number.ReadsBack, Json.parse?] at h
  generalize (Json.number n).compact.toList = text at h numeral
  cases text with
  | nil => cases h
  | cons c cs =>
    rw [Json.readValue?_numeral (numeral c List.mem_cons_self)] at h
    cases hread : Json.readNumeral? (c :: cs) with
    | none =>
      rw [hread] at h
      cases h
    | some found =>
      obtain ⟨found, rest⟩ := found
      rw [hread] at h
      dsimp only [Option.map_some] at h
      split at h
      · next blank =>
        refine ⟨found, ?_, Option.some.inj h⟩
        cases rest with
        | nil => rfl
        | cons d after =>
          -- What is left of a numeral would not be blank.
          have hd : isNumeralChar d :=
            numeral d ((Json.readNumeral?_suffix hread).subset List.mem_cons_self)
          rw [Json.skipSpace_cons (Json.isSpace_of_isNumeralChar hd)] at blank
          cases blank
      · cases h

end Pagewright
