import Mathlib.Computability.Language
import Mathlib.Data.List.TakeWhile
import Pagewright.Number.Read
import Pagewright.Proofs.Number.Nearest

/-!
The numbers at the beginning of a text. The two readers split a text greedily, part by part, and
what they find is the longest beginning that belongs to a language: `[+-]?[0-9]*([.][0-9]*)?` with a
digit in it, or `[+-]?[0-9]+`.
-/

namespace Pagewright

namespace Number

open scoped Computability

/-- `[+-]?` -/
def signs : Language Char := {[], ['+'], ['-']}

/-- `[0-9]` -/
def digit : Language Char := {text | ∃ c, text = [c] ∧ c.isDigit}

/-- `([.][0-9]*)?` -/
def fractions : Language Char := 1 + {['.']} * digit∗

def HasDigit (text : List Char) : Prop := ∃ c ∈ text, c.isDigit

/-- `[+-]?[0-9]*([.][0-9]*)?` with at least one digit. -/
def IsDecimal (text : List Char) : Prop := text ∈ signs * (digit∗ * fractions) ∧ HasDigit text

/-- `[+-]?[0-9]+` -/
def IsInteger (text : List Char) : Prop := text ∈ signs * (digit * digit∗)

/-- A beginning of a text that has a form, where no longer one has it. -/
structure IsLongest (form : List Char → Prop) (cs lead : List Char) : Prop where
  begins : lead <+: cs
  formed : form lead
  longest : ∀ other, other <+: cs → form other → other.length ≤ lead.length

/-- The digits of a text, read as one number in base ten. -/
def digitsOf (text : List Char) : Nat := Nat.ofDigitChars 10 (text.filter Char.isDigit) 0

/-- How many characters stand behind the point. -/
def placesOf (text : List Char) : Nat := (text.dropWhile (· ≠ '.')).tail.length

/-- The number nearest to what a decimal text says. -/
def decimalValue (text : List Char) : Number :=
  ofDecimal (text.head? = some '-') (digitsOf text) (-placesOf text)

theorem decimalValue_rounds (text : List Char) :
    Rounds (text.head? = some '-') (digitsOf text / 10 ^ placesOf text) (decimalValue text) := by
  have h := ofDecimal_rounds (text.head? = some '-') (digitsOf text) (-placesOf text)
  rwa [zpow_neg, zpow_natCast, ← div_eq_mul_inv] at h

def integerValue (text : List Char) : Int :=
  if text.head? = some '-' then -digitsOf text else digitsOf text

section Languages

theorem mem_signs {text : List Char} : text ∈ signs ↔ text = [] ∨ text = ['+'] ∨ text = ['-'] :=
  Iff.rfl

theorem mem_digits {text : List Char} : text ∈ digit∗ ↔ ∀ c ∈ text, c.isDigit := by
  rw [Language.mem_kstar]
  constructor
  · rintro ⟨parts, rfl, hparts⟩ c hc
    obtain ⟨part, hpart, hc⟩ := List.mem_flatten.mp hc
    obtain ⟨d, rfl, hd⟩ := hparts part hpart
    obtain rfl := List.mem_singleton.mp hc
    exact hd
  · intro h
    refine ⟨text.map fun c => [c], by rw [← List.flatMap_def, List.flatMap_singleton'], ?_⟩
    intro part hpart
    obtain ⟨c, hc, rfl⟩ := List.mem_map.mp hpart
    exact ⟨c, rfl, h c hc⟩

theorem mem_fractions {text : List Char} :
    text ∈ fractions ↔ text = [] ∨ ∃ digits, text = '.' :: digits ∧ ∀ c ∈ digits, c.isDigit := by
  simp only [fractions, Language.mem_add, Language.mem_one, Language.mem_mul, mem_digits]
  refine or_congr_right ⟨?_, ?_⟩
  · rintro ⟨_, rfl, digits, hdigits, rfl⟩
    exact ⟨digits, rfl, hdigits⟩
  · rintro ⟨digits, rfl, hdigits⟩
    exact ⟨['.'], rfl, digits, hdigits, rfl⟩

theorem not_isDigit_of_mem_sign {sign : List Char} (h : sign ∈ signs) :
    ∀ c ∈ sign, ¬ (c.isDigit ∨ c = '.') := by
  rcases mem_signs.mp h with rfl | rfl | rfl
  · exact List.forall_mem_nil _
  · exact List.forall_mem_singleton.mpr (by decide)
  · exact List.forall_mem_singleton.mpr (by decide)

theorem isDigit_or_eq_of_mem {text : List Char} (h : text ∈ digit∗ * fractions) :
    ∀ c ∈ text, c.isDigit ∨ c = '.' := by
  obtain ⟨digits, hdigits, fraction, hfraction, rfl⟩ := Language.mem_mul.mp h
  refine List.forall_mem_append.mpr ⟨fun c hc => .inl (mem_digits.mp hdigits c hc), ?_⟩
  rcases mem_fractions.mp hfraction with rfl | ⟨places, rfl, hplaces⟩
  · exact List.forall_mem_nil _
  · exact List.forall_mem_cons.mpr ⟨.inr rfl, fun c hc => .inl (hplaces c hc)⟩

theorem mem_mul_fractions {text : List Char} (h : text ∈ digit∗) : text ∈ digit∗ * fractions :=
  ⟨text, h, [], mem_fractions.mpr (.inl rfl), List.append_nil text⟩

/-- One digit at least is all that sets an integer apart from a sign with digits behind it. -/
theorem isInteger_iff {text : List Char} :
    IsInteger text ↔ text ∈ signs * digit∗ ∧ HasDigit text := by
  simp only [IsInteger, Language.mem_mul, mem_digits]
  constructor
  · rintro ⟨sign, hsign, _, ⟨_, ⟨c, rfl, hc⟩, rest, hrest, rfl⟩, rfl⟩
    refine ⟨⟨sign, hsign, c :: rest, List.forall_mem_cons.mpr ⟨hc, hrest⟩, rfl⟩, c, ?_, hc⟩
    simp
  · rintro ⟨⟨sign, hsign, digits, hdigits, rfl⟩, c, hc, hdigit⟩
    cases digits with
    | nil =>
      rw [List.append_nil] at hc
      exact absurd (.inl hdigit) (not_isDigit_of_mem_sign hsign c hc)
    | cons d rest =>
      obtain ⟨hd, hrest⟩ := List.forall_mem_cons.mp hdigits
      exact ⟨sign, hsign, d :: rest, ⟨[d], ⟨d, rfl, hd⟩, rest, hrest, rfl⟩, rfl⟩

end Languages

section Runs

variable {l m : Language Char} {cs rest run behind : List Char}

/-- A beginning of a text in a language, of which every other one in the language is a part. -/
private structure IsRun (l : Language Char) (cs run : List Char) : Prop where
  begins : run <+: cs
  mem : run ∈ l
  covers : ∀ other, other <+: cs → other ∈ l → other <+: run

/-- A run goes on with a run behind it, if nothing of the second language could begin within the
first run. -/
private theorem IsRun.append (h : IsRun l cs run) (hsplit : run ++ rest = cs)
    (h' : IsRun m rest behind) (apart : ∀ c ∈ run, ∀ text, c :: text ∉ m) :
    IsRun (l * m) cs (run ++ behind) := by
  subst hsplit
  refine ⟨(List.prefix_append_right_inj run).mpr h'.begins, ⟨run, h.mem, behind, h'.mem, rfl⟩, ?_⟩
  rintro _ hbegins ⟨first, hfirst, second, hsecond, rfl⟩
  obtain ⟨more, rfl⟩ := h.covers first ((List.prefix_append first second).trans hbegins) hfirst
  rw [List.append_assoc, List.prefix_append_right_inj] at hbegins
  rw [List.append_assoc, List.prefix_append_right_inj]
  cases more with
  | nil => exact h'.covers second hbegins hsecond
  | cons c more =>
    cases second with
    | nil => exact List.nil_prefix
    | cons d second =>
      obtain ⟨rfl, -⟩ := List.cons_prefix_cons.mp hbegins
      exact absurd hsecond (apart d (by simp) second)

private theorem splitSign_parts (cs : List Char) : (splitSign cs).1 ++ (splitSign cs).2 = cs := by
  unfold splitSign
  split <;> rfl

private theorem splitDigits_parts (cs : List Char) :
    (splitDigits cs).1 ++ (splitDigits cs).2 = cs :=
  List.takeWhile_append_dropWhile

private theorem sign_isRun (cs : List Char) : IsRun signs cs (splitSign cs).1 := by
  refine ⟨⟨_, splitSign_parts cs⟩, ?_, ?_⟩
  · unfold splitSign
    split <;> simp [mem_signs]
  · rintro _ ⟨rest, rfl⟩ hsign
    rcases mem_signs.mp hsign with rfl | rfl | rfl
    · exact List.nil_prefix
    · exact List.prefix_rfl
    · exact List.prefix_rfl

private theorem digits_isRun (cs : List Char) : IsRun digit∗ cs (splitDigits cs).1 := by
  refine ⟨⟨_, splitDigits_parts cs⟩, mem_digits.mpr fun c hc => List.mem_takeWhile_imp hc, ?_⟩
  rintro other ⟨rest, rfl⟩ hdigits
  rw [splitDigits, List.takeWhile_append_of_pos (mem_digits.mp hdigits)]
  exact List.prefix_append other _

/-- The fraction at the beginning of a text. -/
private def fractionRun : List Char → List Char
  | '.' :: rest => '.' :: (splitDigits rest).1
  | _ => []

private theorem fraction_isRun (cs : List Char) : IsRun fractions cs (fractionRun cs) := by
  refine ⟨?_, ?_, ?_⟩
  · unfold fractionRun
    split
    · exact (List.prefix_cons_inj '.').mpr (digits_isRun _).begins
    · exact List.nil_prefix
  · unfold fractionRun
    split
    · exact mem_fractions.mpr (.inr ⟨_, rfl, mem_digits.mp (digits_isRun _).mem⟩)
    · exact mem_fractions.mpr (.inl rfl)
  · rintro other hbegins hother
    rcases mem_fractions.mp hother with rfl | ⟨digits, rfl, hdigits⟩
    · exact List.nil_prefix
    · obtain ⟨rest, rfl⟩ := hbegins
      rw [List.cons_append, fractionRun, List.prefix_cons_inj]
      exact (digits_isRun _).covers digits (List.prefix_append digits rest) (mem_digits.mpr hdigits)

/-- The longest beginning that is a sign with digits behind it, or none of these. -/
private def integerRun (cs : List Char) : List Char :=
  (splitSign cs).1 ++ (splitDigits (splitSign cs).2).1

/-- Digits at the beginning of a text, and the fraction behind them. -/
private def unsignedRun (cs : List Char) : List Char :=
  (splitDigits cs).1 ++ fractionRun (splitDigits cs).2

/-- The longest beginning that has the form of a decimal, be there a digit in it or not. -/
private def decimalRun (cs : List Char) : List Char :=
  (splitSign cs).1 ++ unsignedRun (splitSign cs).2

private theorem integer_isRun (cs : List Char) : IsRun (signs * digit∗) cs (integerRun cs) := by
  refine (sign_isRun cs).append (splitSign_parts cs) (digits_isRun _) fun c hc text htext => ?_
  exact not_isDigit_of_mem_sign (sign_isRun cs).mem c hc
    (isDigit_or_eq_of_mem (mem_mul_fractions htext) c List.mem_cons_self)

private theorem unsigned_isRun (cs : List Char) :
    IsRun (digit∗ * fractions) cs (unsignedRun cs) := by
  refine (digits_isRun cs).append (splitDigits_parts cs) (fraction_isRun _) ?_
  intro c hc text htext
  have hdigit := mem_digits.mp (digits_isRun cs).mem c hc
  rcases mem_fractions.mp htext with hnil | ⟨_, hpoint, -⟩
  · cases hnil
  · cases hpoint
    exact absurd hdigit (by decide)

private theorem decimal_isRun (cs : List Char) :
    IsRun (signs * (digit∗ * fractions)) cs (decimalRun cs) := by
  refine (sign_isRun cs).append (splitSign_parts cs) (unsigned_isRun _) fun c hc text htext => ?_
  exact not_isDigit_of_mem_sign (sign_isRun cs).mem c hc
    (isDigit_or_eq_of_mem htext c List.mem_cons_self)

theorem hasDigit_append_iff {sign : List Char} (h : sign ∈ signs) (text : List Char) :
    HasDigit (sign ++ text) ↔ HasDigit text := by
  constructor
  · rintro ⟨c, hc, hdigit⟩
    have hsign : c ∉ sign := fun hm => not_isDigit_of_mem_sign h c hm (.inl hdigit)
    exact ⟨c, (List.mem_append.mp hc).resolve_left hsign, hdigit⟩
  · exact fun ⟨c, hc, hdigit⟩ => ⟨c, List.mem_append_right sign hc, hdigit⟩

/-- Behind the sign there is a digit, unless there is nothing or a point alone. -/
theorem hasDigit_iff {text : List Char} (h : text ∈ digit∗ * fractions) :
    HasDigit text ↔ text ≠ [] ∧ text ≠ ['.'] := by
  constructor
  · rintro ⟨c, hc, hdigit⟩
    constructor <;> rintro rfl
    · exact List.not_mem_nil hc
    · rw [List.mem_singleton.mp hc] at hdigit
      exact absurd hdigit (by decide)
  · rintro ⟨hnil, hpoint⟩
    obtain ⟨digits, hdigits, fraction, hfraction, rfl⟩ := Language.mem_mul.mp h
    cases digits with
    | cons d rest => exact ⟨d, List.mem_cons_self, mem_digits.mp hdigits d List.mem_cons_self⟩
    | nil =>
      rcases mem_fractions.mp hfraction with rfl | ⟨places, rfl, hplaces⟩
      · exact absurd rfl hnil
      · cases places with
        | nil => exact absurd rfl hpoint
        | cons d rest => exact ⟨d, by simp, hplaces d List.mem_cons_self⟩

private theorem integerLead?_eq_some_iff {lead : List Char} :
    integerLead? cs = some lead ↔ HasDigit (integerRun cs) ∧ lead = integerRun cs := by
  have heq : integerLead? cs =
      if (splitDigits (splitSign cs).2).1 = [] then none else some (integerRun cs) := rfl
  have hdigits := (digits_isRun (splitSign cs).2).mem
  have hpoint : (splitDigits (splitSign cs).2).1 ≠ ['.'] := by
    intro h
    rw [h] at hdigits
    exact absurd (mem_digits.mp hdigits '.' List.mem_cons_self) (by decide)
  have hrun : HasDigit (integerRun cs) ↔ (splitDigits (splitSign cs).2).1 ≠ [] := by
    rw [integerRun, hasDigit_append_iff (sign_isRun cs).mem,
      hasDigit_iff (mem_mul_fractions hdigits), and_iff_left hpoint]
  rw [heq, hrun]
  split
  · next h => simp [h]
  · next h => simp [h, eq_comm]

private theorem decimalLead?_eq_some_iff {lead : List Char} :
    decimalLead? cs = some lead ↔ HasDigit (decimalRun cs) ∧ lead = decimalRun cs := by
  have heq : decimalLead? cs =
      if unsignedRun (splitSign cs).2 = [] || unsignedRun (splitSign cs).2 = ['.'] then none
      else some (decimalRun cs) := by
    rw [decimalRun, unsignedRun, ← List.append_assoc]
    rfl
  have hrun : HasDigit (decimalRun cs) ↔
      unsignedRun (splitSign cs).2 ≠ [] ∧ unsignedRun (splitSign cs).2 ≠ ['.'] := by
    rw [decimalRun, hasDigit_append_iff (sign_isRun cs).mem, hasDigit_iff (unsigned_isRun _).mem]
  rw [heq, hrun]
  by_cases h : unsignedRun (splitSign cs).2 ≠ [] ∧ unsignedRun (splitSign cs).2 ≠ ['.']
  · rw [if_neg (by simpa using h), Option.some.injEq, and_iff_right h, eq_comm]
  · rw [if_pos (by simpa [or_iff_not_imp_left] using h)]
    simp [h]

/-- A reader that gives a run if it has a digit gives the longest beginning with a digit. -/
private theorem IsRun.reads (h : IsRun l cs run) {form : List Char → Prop}
    (hform : ∀ text, form text ↔ text ∈ l ∧ HasDigit text) {found : Option (List Char)}
    (hfound : ∀ lead, found = some lead ↔ HasDigit run ∧ lead = run) :
    (∀ lead, found = some lead ↔ IsLongest form cs lead) ∧
      (found = none ↔ ¬ ∃ lead, lead <+: cs ∧ form lead) := by
  have covered {other : List Char} (hbegins : other <+: cs) (hother : form other) :
      other <+: run ∧ HasDigit run := by
    obtain ⟨hmem, hdigit⟩ := (hform other).mp hother
    have hpart := h.covers other hbegins hmem
    exact ⟨hpart, hdigit.imp fun c hc => ⟨hpart.subset hc.1, hc.2⟩⟩
  constructor
  · intro lead
    rw [hfound]
    constructor
    · rintro ⟨hdigit, rfl⟩
      exact ⟨h.begins, (hform lead).mpr ⟨h.mem, hdigit⟩, fun other hbegins hother =>
        (covered hbegins hother).1.length_le⟩
    · intro hlead
      obtain ⟨hpart, hdigit⟩ := covered hlead.begins hlead.formed
      have hlength := hlead.longest run h.begins ((hform run).mpr ⟨h.mem, hdigit⟩)
      exact ⟨hdigit, hpart.eq_of_length_le hlength⟩
  · rw [Option.eq_none_iff_forall_ne_some]
    constructor
    · rintro hnone ⟨lead, hbegins, hlead⟩
      exact hnone run ((hfound run).mpr ⟨(covered hbegins hlead).2, rfl⟩)
    · rintro hnone lead hlead
      obtain ⟨hdigit, -⟩ := (hfound lead).mp hlead
      exact hnone ⟨run, h.begins, (hform run).mpr ⟨h.mem, hdigit⟩⟩

end Runs

section Values

variable {cs lead sign body : List Char}

theorem decimalLead?_exact (cs : List Char) :
    (∀ lead, decimalLead? cs = some lead ↔ IsLongest IsDecimal cs lead) ∧
      (decimalLead? cs = none ↔ ¬ ∃ lead, lead <+: cs ∧ IsDecimal lead) :=
  (decimal_isRun cs).reads (fun _ => Iff.rfl) fun _ => decimalLead?_eq_some_iff

theorem integerLead?_exact (cs : List Char) :
    (∀ lead, integerLead? cs = some lead ↔ IsLongest IsInteger cs lead) ∧
      (integerLead? cs = none ↔ ¬ ∃ lead, lead <+: cs ∧ IsInteger lead) :=
  (integer_isRun cs).reads (fun _ => isInteger_iff) fun _ => integerLead?_eq_some_iff

theorem splitSign_of_mem (hsign : sign ∈ signs) (hbody : body ∈ digit∗ * fractions) :
    splitSign (sign ++ body) = (sign, body) := by
  rcases mem_signs.mp hsign with rfl | rfl | rfl
  · cases body with
    | nil => rfl
    | cons c rest =>
      have hc := isDigit_or_eq_of_mem hbody c List.mem_cons_self
      have hplus : c ≠ '+' := by
        rintro rfl
        exact absurd hc (by decide)
      have hminus : c ≠ '-' := by
        rintro rfl
        exact absurd hc (by decide)
      simp [splitSign, hplus, hminus]
  · rfl
  · rfl

/-- A decimal has no letters, but the names of the infinities and of NaN have. -/
theorem notMem_map_toLower (hbody : body ∈ digit∗ * fractions) : 'n' ∉ body.map Char.toLower := by
  have hdigit {c : Char} (h : c.isDigit) : c.toLower ≠ 'n' :=
    forall_isAlphanum (p := fun c => c.isDigit → c.toLower ≠ 'n') (by decide)
      (by simp [Char.isAlphanum, h]) h
  intro hm
  obtain ⟨c, hc, hlower⟩ := List.mem_map.mp hm
  rcases isDigit_or_eq_of_mem hbody c hc with h | rfl
  · exact hdigit h hlower
  · exact absurd hlower (by decide)

theorem digitsOf_append (before after : List Char) : digitsOf (before ++ after) =
    Nat.ofDigitChars 10 (before.filter Char.isDigit ++ after.filter Char.isDigit) 0 := by
  rw [digitsOf, List.filter_append]

theorem placesOf_append {before : List Char} (h : ∀ c ∈ before, c ≠ '.') (after : List Char) :
    placesOf (before ++ after) = placesOf after := by
  rw [placesOf, placesOf, List.dropWhile_append_of_pos fun c hc => decide_eq_true (h c hc)]

theorem ne_point_of_isDigit {digits : List Char} (h : ∀ c ∈ digits, c.isDigit) :
    ∀ c ∈ digits, c ≠ '.' := by
  rintro c hc rfl
  exact absurd (h '.' hc) (by decide)

/-- Digits with a point among them are read as all the digits, shifted by the places behind it. -/
theorem readMagnitude?_of_mem (negative : Bool) (hbody : body ∈ digit∗ * fractions)
    (hdigit : HasDigit body) : readMagnitude? negative body =
      some (ofDecimal negative (digitsOf body) (-placesOf body)) := by
  obtain ⟨whole, hwhole, fraction, hfraction, rfl⟩ := Language.mem_mul.mp hbody
  rw [mem_digits] at hwhole
  have hstop : ∀ c ∈ fraction.head?, ¬ c.isDigit := by
    rcases mem_fractions.mp hfraction with rfl | ⟨places, rfl, -⟩ <;> simp
  rw [readMagnitude?, splitDigits_of_digits hwhole hstop, digitsOf_append,
    List.filter_eq_self.mpr hwhole, placesOf_append (ne_point_of_isDigit hwhole)]
  rcases mem_fractions.mp hfraction with rfl | ⟨places, rfl, hplaces⟩
  · have hfull : whole ≠ [] := by
      rintro rfl
      exact absurd hdigit (by simp [HasDigit])
    simp [hfull, readExponent?, placesOf, digitsValue, Nat.ofDigitChars]
  · have hfull : ¬ (whole = [] ∧ places = []) := by
      rintro ⟨rfl, rfl⟩
      exact absurd hdigit (by simp [HasDigit])
    have hsplit : splitDigits (places ++ []) = (places, []) :=
      splitDigits_of_digits hplaces (by simp)
    rw [List.append_nil] at hsplit
    have hfilter : ('.' :: places).filter Char.isDigit = places :=
      (List.filter_cons_of_neg (by decide)).trans (List.filter_eq_self.mpr hplaces)
    simp [hfull, hsplit, hfilter, readExponent?, placesOf, digitsValue, Nat.ofDigitChars]

/-- The sign of a number is its first character, and it adds neither digits nor places. -/
theorem sign_append (hsign : sign ∈ signs) (hbody : body ∈ digit∗ * fractions) :
    ((sign ++ body).head? = some '-' ↔ sign = ['-']) ∧ digitsOf (sign ++ body) = digitsOf body ∧
      placesOf (sign ++ body) = placesOf body := by
  have hhead : body.head? ≠ some '-' := by
    intro h
    exact absurd (isDigit_or_eq_of_mem hbody '-' (List.mem_of_head? h)) (by decide)
  rcases mem_signs.mp hsign with rfl | rfl | rfl
  · simp [hhead]
  · simp [digitsOf, placesOf]
  · simp [digitsOf, placesOf]

/-- A decimal is read as its value. -/
theorem ofText?_of_isDecimal (h : IsDecimal lead) : ofText? lead = some (decimalValue lead) := by
  obtain ⟨⟨sign, hsign, body, hbody, rfl⟩, hdigit⟩ := h
  rw [hasDigit_append_iff hsign] at hdigit
  obtain ⟨hnegative, hdigits, hplaces⟩ := sign_append hsign hbody
  have hname (name : String) (hn : 'n' ∈ name.toList) :
      String.ofList (body.map Char.toLower) ≠ name := by
    rintro rfl
    rw [String.toList_ofList] at hn
    exact notMem_map_toLower hbody hn
  have hinf := hname "inf" (by decide)
  have hinfinity := hname "infinity" (by decide)
  have hnan := hname "nan" (by decide)
  simp only [ofText?, splitSign_of_mem hsign hbody, hinf, hinfinity, hnan, decide_false,
    Bool.or_self, Bool.false_eq_true, if_false, readMagnitude?_of_mem _ hbody hdigit, decimalValue,
    hnegative, hdigits, hplaces]

/-- An integer is read as its value if that fits. -/
theorem readInt64?_of_isInteger (h : IsInteger lead) : readInt64? lead =
    if leastInt64 ≤ integerValue lead ∧ integerValue lead ≤ greatestInt64 then
      some (integerValue lead)
    else none := by
  obtain ⟨⟨sign, hsign, digits, hdigits, rfl⟩, hdigit⟩ := isInteger_iff.mp h
  rw [hasDigit_append_iff hsign] at hdigit
  obtain ⟨hnegative, hvalue, -⟩ := sign_append hsign (mem_mul_fractions hdigits)
  rw [digitsOf, digitsOf, List.filter_eq_self.mpr (mem_digits.mp hdigits)] at hvalue
  have hall : digits.all Char.isDigit := List.all_eq_true.mpr (mem_digits.mp hdigits)
  have hfull : digits ≠ [] := by
    rintro rfl
    exact absurd hdigit (by simp [HasDigit])
  have hinteger : integerValue (sign ++ digits) =
      if sign = ['-'] then -(digitsValue digits : Int) else digitsValue digits := by
    rw [integerValue, digitsOf, hvalue]
    simp only [hnegative]
    rfl
  rw [hinteger]
  simp [readInt64?, splitSign_of_mem hsign (mem_mul_fractions hdigits), hfull, hall]

/-- The beginning that is read never fails to be a number. -/
theorem leading?_eq_some_iff {n : Number} : leading? cs = some n ↔
    ∃ lead, IsLongest IsDecimal (trimStart cs) lead ∧ decimalValue lead = n := by
  rw [leading?, Option.bind_eq_some_iff]
  refine exists_congr fun lead => ?_
  rw [(decimalLead?_exact _).1]
  refine and_congr_right fun h => ?_
  rw [ofText?_of_isDecimal h.formed, Option.some.injEq]

theorem leading?_eq_none_iff :
    leading? cs = none ↔ ¬ ∃ lead, lead <+: trimStart cs ∧ IsDecimal lead := by
  rw [← (decimalLead?_exact _).2, leading?]
  cases h : decimalLead? (trimStart cs) with
  | none => simp
  | some lead => simp [ofText?_of_isDecimal (((decimalLead?_exact _).1 lead).mp h).formed]

theorem leadingInt?_eq_some_iff {i : Int} : leadingInt? cs = some i ↔
    ∃ lead, IsLongest IsInteger (trimStart cs) lead ∧ integerValue lead = i ∧
      leastInt64 ≤ i ∧ i ≤ greatestInt64 := by
  rw [leadingInt?, Option.bind_eq_some_iff]
  refine exists_congr fun lead => ?_
  rw [(integerLead?_exact _).1]
  refine and_congr_right fun h => ?_
  rw [readInt64?_of_isInteger h.formed]
  constructor
  · intro hread
    split at hread
    · next hfits =>
      cases hread
      exact ⟨rfl, hfits⟩
    · cases hread
  · rintro ⟨rfl, hfits⟩
    rw [if_pos hfits]

theorem leadingInt?_eq_none_iff : leadingInt? cs = none ↔
    (¬ ∃ lead, lead <+: trimStart cs ∧ IsInteger lead) ∨
      ∃ lead, IsLongest IsInteger (trimStart cs) lead ∧
        (integerValue lead < leastInt64 ∨ greatestInt64 < integerValue lead) := by
  rw [← (integerLead?_exact _).2, leadingInt?]
  simp only [← (integerLead?_exact _).1]
  cases h : integerLead? (trimStart cs) with
  | none => simp
  | some lead =>
    simp only [Option.bind_some, reduceCtorEq, false_or, Option.some.injEq, exists_eq_left',
      readInt64?_of_isInteger (((integerLead?_exact _).1 lead).mp h).formed, ite_eq_right_iff,
      imp_false, not_and_or, not_le]

theorem IsInteger.isDecimal (h : IsInteger lead) : IsDecimal lead := by
  obtain ⟨⟨sign, hsign, digits, hdigits, rfl⟩, hdigit⟩ := isInteger_iff.mp h
  exact ⟨⟨sign, hsign, digits, mem_mul_fractions hdigits, rfl⟩, hdigit⟩

end Values

/-- The numbers at the beginning of a text, after its leading blanks, are read exactly. The longest
beginning that is a decimal is read as the number that its digits and its places round to, and there
is no number only where there is no such beginning. The longest beginning that is an integer is read
as its value, unless this value does not fit 64 signed bits. Where an integer is read, so is a
number, and the decimal begins with the integer. -/
theorem leading_numbers_exact (cs : List Char) :
    (∀ n, leading? cs = some n ↔
      ∃ lead, IsLongest IsDecimal (trimStart cs) lead ∧ decimalValue lead = n) ∧
    (leading? cs = none ↔ ¬ ∃ lead, lead <+: trimStart cs ∧ IsDecimal lead) ∧
    (∀ lead, IsDecimal lead → ofText? lead = some (decimalValue lead) ∧
      Rounds (lead.head? = some '-') (digitsOf lead / 10 ^ placesOf lead) (decimalValue lead)) ∧
    (∀ i, leadingInt? cs = some i ↔
      ∃ lead, IsLongest IsInteger (trimStart cs) lead ∧ integerValue lead = i ∧
        leastInt64 ≤ i ∧ i ≤ greatestInt64) ∧
    (leadingInt? cs = none ↔
      (¬ ∃ lead, lead <+: trimStart cs ∧ IsInteger lead) ∨
        ∃ lead, IsLongest IsInteger (trimStart cs) lead ∧
          (integerValue lead < leastInt64 ∨ greatestInt64 < integerValue lead)) ∧
    ∀ i, leadingInt? cs = some i → ∃ lead whole, leading? cs = some (decimalValue lead) ∧
      IsLongest IsDecimal (trimStart cs) lead ∧ IsLongest IsInteger (trimStart cs) whole ∧
        whole <+: lead := by
  refine ⟨fun _ => leading?_eq_some_iff, leading?_eq_none_iff,
    fun lead h => ⟨ofText?_of_isDecimal h, decimalValue_rounds lead⟩,
    fun _ => leadingInt?_eq_some_iff, leadingInt?_eq_none_iff, ?_⟩
  intro i h
  obtain ⟨whole, hwhole, -⟩ := leadingInt?_eq_some_iff.mp h
  have hdecimal := hwhole.formed.isDecimal
  cases hread : leading? cs with
  | none => exact absurd ⟨whole, hwhole.begins, hdecimal⟩ (leading?_eq_none_iff.mp hread)
  | some n =>
    obtain ⟨lead, hlead, rfl⟩ := leading?_eq_some_iff.mp hread
    have hlength := hlead.longest whole hwhole.begins hdecimal
    exact ⟨lead, whole, rfl, hlead, hwhole,
      List.prefix_of_prefix_length_le hwhole.begins hlead.begins hlength⟩

/-- Blanks, a sign and a point, and a text that goes on behind the number. -/
theorem leading_numbers_of_length :
    leadingInt? " -12.50px".toList = some (-12) ∧
    leading? " -12.50px".toList = some ⟨0xC029000000000000⟩ ∧
    toRat ⟨0xC029000000000000⟩ = -12.5 ∧
    ∃ lead whole, leading? " -12.50px".toList = some (decimalValue lead) ∧
      IsLongest IsDecimal (trimStart " -12.50px".toList) lead ∧
      IsLongest IsInteger (trimStart " -12.50px".toList) whole ∧ whole <+: lead ∧
      ofText? lead = some (decimalValue lead) ∧
      Rounds (lead.head? = some '-') (digitsOf lead / 10 ^ placesOf lead) (decimalValue lead) := by
  have h : leadingInt? " -12.50px".toList = some (-12) := by decide
  obtain ⟨-, -, read, -, -, together⟩ := leading_numbers_exact " -12.50px".toList
  obtain ⟨lead, whole, hread, hlead, hwhole, hbegins⟩ := together (-12) h
  obtain ⟨hvalue, hrounds⟩ := read lead hlead.formed
  refine ⟨h, rfl, ?_, lead, whole, hread, hlead, hwhole, hbegins, hvalue, hrounds⟩
  have hsign : isNegative ⟨0xC029000000000000⟩ = true := by decide
  have hsignificand : significand ⟨0xC029000000000000⟩ = 25 * 2 ^ 48 := by decide
  have hexponent : exponent ⟨0xC029000000000000⟩ = -49 := by decide
  rw [toRat, hsign, hsignificand, hexponent]
  norm_num

end Number

end Pagewright
