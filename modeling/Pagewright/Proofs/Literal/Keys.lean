import Mathlib.Data.List.TakeWhile
import Pagewright.Proofs.Literal.Strings

/-! Which texts a reader takes for themselves as keys: names and numerals that are written as their
numbers. A string would have to hold its own quotation mark. -/

namespace Pagewright

namespace Literal

section Gaps

theorem not_isGap_of_lt {c : Char} (h : c.toNat < 0x80) (hblank : ¬ isBlank c) : ¬ isGap c := by
  have hmark : c ≠ '\ufeff' := by
    rintro rfl
    exact absurd h (by decide)
  simp [isGap, hblank, hmark]

theorem not_isGap_of_isDigit {c : Char} (h : c.isDigit) : ¬ isGap c := by
  have halphanum : c.isAlphanum := by simp [Char.isAlphanum, h]
  exact not_isGap_of_lt (toNat_lt_of_isAlphanum halphanum) (not_isBlank_of_isAlphanum halphanum)

theorem not_isGap_of_isNumeralPart {c : Char} (h : isNumeralPart c) : ¬ isGap c := by
  simp only [isNumeralPart, isNumeralChar, Bool.or_eq_true, decide_eq_true_eq] at h
  rcases h with ((((h | rfl) | rfl) | rfl) | rfl) | rfl
  · exact not_isGap_of_isDigit h
  all_goals decide

theorem skipGaps_cons {c : Char} (h : ¬ isGap c) (cs : List Char) : skipGaps (c :: cs) = c :: cs := by
  simp [skipGaps, h]

/-- The alphabet of ASCII alone. -/
instance : Inhabited Alphabet where
  default :=
    { starts := fun c => c.isAlpha || c = '$' || c = '_'
      continues := fun c => c.isAlphanum || c = '$' || c = '_'
      starts_ascii := fun _ _ => rfl
      continues_ascii := fun _ _ => rfl
      continues_of_starts := fun c h => by
        simp only [Bool.or_eq_true] at h ⊢
        exact h.imp_left (Or.imp_left fun hc => by simp [Char.isAlphanum, hc])
      not_continues_of_isGap := fun c hgap h => by
        simp only [Bool.or_eq_true, decide_eq_true_eq] at h
        rcases h with (h | rfl) | rfl
        · exact not_isGap_of_lt (toNat_lt_of_isAlphanum h) (not_isBlank_of_isAlphanum h) hgap
        all_goals exact absurd hgap (by decide) }

end Gaps

section Stop

variable {p : Char → Bool} {stop : Char}

/-- What goes on only for as long as a property holds ends in front of a character without it. -/
private theorem takeWhile_stop (h : p stop = false) (cs rest : List Char) :
    (cs ++ stop :: rest).takeWhile p = cs.takeWhile p := by
  induction cs with
  | nil => simp [h]
  | cons c cs ih => rw [List.cons_append, List.takeWhile_cons, List.takeWhile_cons, ih]

private theorem dropWhile_stop (h : p stop = false) (cs rest : List Char) :
    (cs ++ stop :: rest).dropWhile p = cs.dropWhile p ++ stop :: rest := by
  induction cs with
  | nil => simp [h]
  | cons c cs ih =>
    rw [List.cons_append, List.dropWhile_cons, List.dropWhile_cons, ih]
    split <;> rfl

end Stop

/-- A numeral in front of something else. -/
theorem readNumeral?_stop {stop : Char} (h : ¬ isNumeralPart stop) (cs rest : List Char) :
    readNumeral? (cs ++ stop :: rest) =
      (readNumeral? cs).map fun (token, after) => (token, after ++ stop :: rest) := by
  have hstop : isNumeralPart stop = false := by simpa using h
  unfold readNumeral?
  dsimp only
  rw [takeWhile_stop hstop, dropWhile_stop hstop]
  split <;> rfl

/-- A numeral as a key is the text of a number. -/
private theorem numeralKey_chars (token : List Char) :
    (∀ c ∈ numeralKey token, isNumeralPart c) ∨ numeralKey token = "Infinity".toList := by
  unfold numeralKey
  split
  · next n _ =>
    split
    · refine .inl fun c hc => ?_
      simp [isNumeralPart, IsNumeral.finiteText numberLayout n c hc]
    · exact .inr rfl
  · exact .inl nofun

/-- A numeral that is the text of its number. -/
structure IsNumeralKey (key : List Char) : Prop where
  digit : ∃ c rest, key = c :: rest ∧ c.isDigit
  read : readNumeral? key = some (key, [])
  self : numeralKey key = key

namespace Alphabet

variable (a : Alphabet)

def IsName (key : List Char) : Prop :=
  ∃ c rest, key = c :: rest ∧ a.starts c ∧ ∀ d ∈ rest, a.continues d

/-- A key that stands for itself: it is a name, or a numeral that is the text of its number. -/
def IsPlainKey (key : String) : Prop :=
  key ≠ prototypeKey ∧ (a.IsName key.toList ∨ IsNumeralKey key.toList)

theorem not_starts_colon : ¬ a.starts ':' := by
  rw [a.starts_ascii _ (by decide)]
  decide

theorem continues_colon : a.continues ':' = false := a.continues_ascii _ (by decide)

end Alphabet

variable {a : Alphabet} {key more rest : List Char}

private theorem Alphabet.IsName.head {c : Char} (h : a.starts c) :
    ¬ isGap c ∧ c ≠ '"' ∧ c ≠ '\'' ∧ ¬ c.isDigit := by
  have hne (d : Char) (hascii : d.toNat < 0x80)
      (hd : (d.isAlpha || decide (d = '$') || decide (d = '_')) = false) : c ≠ d := by
    rintro rfl
    rw [a.starts_ascii _ hascii, hd] at h
    cases h
  refine ⟨fun hgap => a.not_continues_of_isGap c hgap (a.continues_of_starts c h),
    hne '"' (by decide) (by decide), hne '\'' (by decide) (by decide), fun hdigit => ?_⟩
  have hascii : c.toNat < 0x80 := toNat_lt_of_isAlphanum (by simp [Char.isAlphanum, hdigit])
  have hall : ∀ n < 0x80, (Char.ofNat n).isDigit →
      ((Char.ofNat n).isAlpha || decide (Char.ofNat n = '$') || decide (Char.ofNat n = '_')) =
        false := by decide
  have hc := hall c.toNat hascii
  rw [Char.ofNat_toNat] at hc
  exact hne c hascii (hc hdigit) rfl

/-- A plain key is read as itself in front of its value. -/
theorem readKey?_self (h : a.IsName key ∨ IsNumeralKey key) (more : List Char) :
    readKey? a (skipGaps (key ++ ':' :: more)) = some (key, ':' :: more) := by
  rcases h with ⟨c, rest, rfl, hc, hrest⟩ | ⟨⟨c, rest, rfl, hc⟩, hread, hself⟩
  · obtain ⟨hgap, hdouble, hsingle, hdigit⟩ := Alphabet.IsName.head hc
    rw [List.cons_append, skipGaps_cons hgap, readKey?,
      if_neg (by simp [hdouble, hsingle]), if_neg hdigit, if_pos hc,
      takeWhile_stop a.continues_colon, dropWhile_stop a.continues_colon,
      List.takeWhile_eq_self_iff.mpr hrest, List.dropWhile_eq_nil_iff.mpr hrest]
    rfl
  · have hne (d : Char) (hd : d.isDigit = false) : c ≠ d := by
      rintro rfl
      rw [hd] at hc
      cases hc
    rw [List.cons_append, skipGaps_cons (not_isGap_of_isDigit hc), readKey?,
      if_neg (by simp [hne '"' rfl, hne '\'' rfl]), if_pos hc, ← List.cons_append,
      readNumeral?_stop (by decide), hread]
    simp [hself]

example : IsNumeralKey "404".toList := ⟨⟨'4', _, rfl, rfl⟩, by decide, by decide +kernel⟩

example : ¬ IsNumeralKey "1e3".toList := fun h => absurd h.self (by decide +kernel)

/-- No string literal at the beginning of a key has the key as its text: the text would be too
short, or hold a colon before the first one. -/
private theorem not_readString?_self {gaps tail : List Char} {mark : Char}
    (hgaps : ∀ c ∈ gaps, isGap c) (hmark : mark ≠ ':') :
    readString? mark .plain (tail ++ ':' :: more) ≠ some (gaps ++ mark :: tail, rest) := by
  intro h
  obtain ⟨before, after, hsplit, hfirst, hprefix⟩ : ∃ before after,
      tail ++ ':' :: more = before ++ ':' :: after ∧ ':' ∉ before ∧ before <+: tail := by
    by_cases hcolon : ':' ∈ tail
    · obtain ⟨before, after, rfl, hfirst⟩ := List.eq_append_cons_of_mem hcolon
      exact ⟨before, after ++ ':' :: more, by simp, hfirst, List.prefix_append _ _⟩
    · exact ⟨tail, more, rfl, hcolon, List.prefix_rfl⟩
  have hlength := readString?_length _ h
  have hsplitLength := congrArg List.length hsplit
  simp only [List.length_append, List.length_cons] at hlength hsplitLength
  have hbefore := hprefix.length_le
  by_cases hpassed : rest.length ≤ after.length
  · rw [hsplit] at h
    obtain ⟨i, hi, hcolon⟩ := exists_colon_of_readString? hmark h hpassed
    obtain ⟨others, rfl⟩ := hprefix
    have hi' : i < (gaps ++ mark :: before).length := by simp; omega
    have htext : gaps ++ mark :: (before ++ others) = (gaps ++ mark :: before) ++ others := by simp
    rw [htext, List.getElem?_append_left hi'] at hcolon
    have hm := List.mem_of_getElem? hcolon
    rw [List.mem_append, List.mem_cons] at hm
    rcases hm with hm | hm | hm
    · exact absurd (hgaps ':' hm) (by decide)
    · exact hmark hm.symm
    · exact hfirst hm
  · omega

/-- A numeral at the beginning of a key is the whole key if its number has the key as its text. -/
private theorem isNumeralKey_of_read {gaps tail token after : List Char} {c : Char}
    (hgaps : ∀ c ∈ gaps, isGap c) (hdigit : c.isDigit)
    (hread : readNumeral? (c :: tail) = some (token, after))
    (hself : numeralKey token = gaps ++ c :: tail) : IsNumeralKey (gaps ++ c :: tail) := by
  have hchars : ∀ d ∈ gaps ++ c :: tail, isNumeralPart d := by
    rcases numeralKey_chars token with hchars | hinfinite
    · rwa [hself] at hchars
    · have hm : c ∈ "Infinity".toList := by simp [← hinfinite, hself]
      have hnone : "Infinity".toList.all (!·.isDigit) := by decide
      have hc := List.all_eq_true.mp hnone c hm
      rw [hdigit] at hc
      cases hc
  obtain ⟨hgapsChars, htail⟩ := List.forall_mem_append.mp hchars
  have hnone : gaps = [] := List.eq_nil_iff_forall_not_mem.mpr fun d hd =>
    not_isGap_of_isNumeralPart (hgapsChars d hd) (hgaps d hd)
  subst hnone
  have hwhole : token = c :: tail ∧ after = [] := by
    unfold readNumeral? at hread
    dsimp only at hread
    rw [List.takeWhile_eq_self_iff.mpr htail, List.dropWhile_eq_nil_iff.mpr htail] at hread
    split at hread
    · obtain ⟨rfl, rfl⟩ := Prod.mk.inj (Option.some.inj hread)
      exact ⟨rfl, rfl⟩
    · cases hread
  obtain ⟨rfl, rfl⟩ := hwhole
  exact ⟨⟨c, tail, rfl, hdigit⟩, hread, hself⟩

/-- Only plain keys are read as themselves. -/
theorem isPlain_of_readKey? (h : readKey? a (skipGaps (key ++ ':' :: more)) = some (key, rest)) :
    a.IsName key ∨ IsNumeralKey key := by
  have hcolon : isGap ':' = false := by decide
  have hgaps : ∀ c ∈ key.takeWhile isGap, isGap c := fun c hc => List.mem_takeWhile_imp hc
  have hkey : key.takeWhile isGap ++ key.dropWhile isGap = key := List.takeWhile_append_dropWhile
  rw [skipGaps, dropWhile_stop hcolon] at h
  generalize key.takeWhile isGap = gaps at hgaps hkey
  generalize key.dropWhile isGap = tail at h hkey
  subst hkey
  cases tail with
  | nil =>
    rw [List.nil_append, readKey?, if_neg (by decide), if_neg (by decide),
      if_neg a.not_starts_colon] at h
    cases h
  | cons c tail =>
    rw [List.cons_append, readKey?] at h
    split at h
    · next hmark =>
      have hne : c ≠ ':' := by
        rintro rfl
        exact absurd hmark (by decide)
      exact absurd h (not_readString?_self hgaps hne)
    split at h
    · next hdigit =>
      rw [← List.cons_append, readNumeral?_stop (by decide), Option.map_map] at h
      obtain ⟨⟨token, after⟩, hread, hself⟩ := Option.map_eq_some_iff.mp h
      exact .inr (isNumeralKey_of_read hgaps hdigit hread (Prod.mk.inj hself).1)
    split at h
    · next hstarts =>
      rw [takeWhile_stop a.continues_colon] at h
      have hself := (Prod.mk.inj (Option.some.inj h)).1
      have hlength := congrArg List.length hself
      have hshort := (List.takeWhile_prefix a.continues (l := tail)).length_le
      simp only [List.length_cons, List.length_append] at hlength
      obtain rfl : gaps = [] := List.eq_nil_of_length_eq_zero (by omega)
      exact .inl ⟨c, tail, rfl, hstarts, List.takeWhile_eq_self_iff.mp (List.cons.inj hself).2⟩
    · cases h

section Members

theorem skipGaps_cons_of_isGap {c : Char} (h : isGap c) (cs : List Char) :
    skipGaps (c :: cs) = skipGaps cs := by
  simp [skipGaps, h]

variable (a) in
/-- The members of an object from the end of a member on. -/
def readFurther? (fuel : Nat) (member : String × Literal) (cs : List Char) :
    Option (List (String × Literal) × List Char) :=
  match skipGaps cs with
  | ',' :: rest =>
    (readMembers? a fuel rest).bind fun (members, rest) => some (member :: members, rest)
  | '}' :: rest => some ([member], rest)
  | _ => none

theorem readFurther?_comma (fuel : Nat) (member : String × Literal) (rest : List Char) :
    readFurther? a fuel member (',' :: rest) =
      (readMembers? a fuel rest).map fun (members, rest) => (member :: members, rest) := by
  rw [readFurther?, skipGaps_cons (by decide), Option.map_eq_bind]
  rfl

theorem readFurther?_brace (fuel : Nat) (member : String × Literal) (rest : List Char) :
    readFurther? a fuel member ('}' :: rest) = some ([member], rest) := by
  rw [readFurther?, skipGaps_cons (by decide)]
  rfl

/-- A member with its key and a colon. -/
theorem readMembers?_key {cs after : List Char}
    (hkey : readKey? a (skipGaps cs) = some (key, ':' :: after)) (fuel : Nat) :
    readMembers? a (fuel + 1) cs =
      if key = prototypeKey.toList then none
      else (readValue? a fuel after).bind fun (value, rest) =>
        readFurther? a fuel (String.ofList key, value) rest := by
  have hcolon : skipGaps (':' :: after) = ':' :: after := skipGaps_cons (by decide) after
  have hbrace (rest : List Char) : readKey? a ('}' :: rest) = none := by
    have hstarts : ¬ a.starts '}' := by
      rw [a.starts_ascii _ (by decide)]
      decide
    rw [readKey?, if_neg (by decide), if_neg (by decide), if_neg hstarts]
  rw [readMembers?]
  split
  · next rest h =>
    rw [h, hbrace] at hkey
    cases hkey
  · change ((readKey? a (skipGaps cs)).bind _) = _
    rw [hkey, Option.bind_some]
    dsimp only
    split
    · rfl
    · rw [hcolon]
      rfl

/-- Where a member is read, its key is. -/
theorem exists_readKey? {cs : List Char} {name : String} {value : Literal}
    {members : List (String × Literal)} {fuel : Nat}
    (h : readMembers? a fuel cs = some ((name, value) :: members, rest)) :
    ∃ after, readKey? a (skipGaps cs) = some (name.toList, after) := by
  cases fuel with
  | zero => cases h
  | succ fuel =>
    rw [readMembers?] at h
    split at h
    · cases h
    · obtain ⟨⟨key, after⟩, hkey, h⟩ := Option.bind_eq_some_iff.mp h
      refine ⟨after, hkey.trans ?_⟩
      suffices hname : String.ofList key = name by rw [← hname, String.toList_ofList]
      dsimp only at h
      split at h
      · cases h
      split at h
      · obtain ⟨⟨value, _⟩, -, h⟩ := Option.bind_eq_some_iff.mp h
        dsimp only at h
        split at h
        · obtain ⟨_, -, h⟩ := Option.bind_eq_some_iff.mp h
          exact (Prod.mk.inj (List.cons.inj (Prod.mk.inj (Option.some.inj h)).1).1).1
        · exact (Prod.mk.inj (List.cons.inj (Prod.mk.inj (Option.some.inj h)).1).1).1
        · cases h
      · cases h

theorem readObject?_eq_some_iff {cs : List Char} {members : List (String × Literal)} :
    readObject? a (String.ofList ('{' :: cs)) = some members ↔
      ∃ rest, readMembers? a (cs.length + 1) cs = some (members, rest) ∧ skipGaps rest = [] := by
  have hvalue : readValue? a (cs.length + 2) ('{' :: cs) =
      (readMembers? a (cs.length + 1) cs).map fun (members, rest) => (.object members, rest) := by
    rw [readValue?, skipGaps_cons (by decide)]
    rfl
  rw [readObject?, String.toList_ofList, List.length_cons, hvalue]
  cases readMembers? a (cs.length + 1) cs with
  | none => simp
  | some result =>
    obtain ⟨found, rest⟩ := result
    constructor
    · intro h
      obtain ⟨hrest, hfound⟩ := Option.ite_none_right_eq_some.mp h
      exact ⟨rest, by rw [Option.some.inj hfound], hrest⟩
    · rintro ⟨rest, hresult, hrest⟩
      obtain ⟨rfl, rfl⟩ := Prod.mk.inj (Option.some.inj hresult)
      exact if_pos hrest

end Members

end Literal

end Pagewright
