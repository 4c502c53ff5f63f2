import Mathlib.Data.List.Find
import Pagewright.Style.Utility

/-!
Opacities as classes. An opacity takes the percentage of the least bound that is not below it: none
at or below zero, and a hundred beyond the last bound. A greater opacity never has a smaller
percentage, and comparisons alone decide.
-/

namespace Pagewright

namespace Number

/-- Strict numeric comparison; a NaN compares with nothing. -/
def lt (a b : Number) : Bool := !a.isNaN && !b.isNaN && a.position < b.position

variable {a b c : Number}

protected theorem le_iff :
    a.le b ↔ a.isNaN = false ∧ b.isNaN = false ∧ a.position ≤ b.position := by
  simp [le, and_assoc]

protected theorem lt_iff :
    a.lt b ↔ a.isNaN = false ∧ b.isNaN = false ∧ a.position < b.position := by
  simp [lt, and_assoc]

protected theorem le_refl (h : a.isNaN = false) : a.le a :=
  Number.le_iff.mpr ⟨h, h, Int.le_refl _⟩

protected theorem le_trans (hab : a.le b) (hbc : b.le c) : a.le c := by
  obtain ⟨ha, -, hab⟩ := Number.le_iff.mp hab
  obtain ⟨-, hc, hbc⟩ := Number.le_iff.mp hbc
  exact Number.le_iff.mpr ⟨ha, hc, Int.le_trans hab hbc⟩

protected theorem le_of_lt (h : a.lt b) : a.le b := by
  obtain ⟨ha, hb, hab⟩ := Number.lt_iff.mp h
  exact Number.le_iff.mpr ⟨ha, hb, Int.le_of_lt hab⟩

protected theorem not_le_of_lt (h : a.lt b) : ¬ b.le a := by
  intro hba
  exact Int.not_le.mpr (Number.lt_iff.mp h).2.2 (Number.le_iff.mp hba).2.2

protected theorem lt_of_lt_of_le (hab : a.lt b) (hbc : b.le c) : a.lt c := by
  obtain ⟨ha, -, hab⟩ := Number.lt_iff.mp hab
  obtain ⟨-, hc, hbc⟩ := Number.le_iff.mp hbc
  exact Number.lt_iff.mpr ⟨ha, hc, Int.lt_of_lt_of_le hab hbc⟩

protected theorem le_or_lt (ha : a.isNaN = false) (hb : b.isNaN = false) : a.le b ∨ b.lt a := by
  rcases Int.lt_or_le b.position a.position with hlt | hle
  · exact .inr (Number.lt_iff.mpr ⟨hb, ha, hlt⟩)
  · exact .inl (Number.le_iff.mpr ⟨ha, hb, hle⟩)

end Number

/-- The class of a percentage. -/
def opacityName (percent : Nat) : String := "opacity-" ++ toString percent

theorem opacityName_inj {p q : Nat} (h : opacityName p = opacityName q) : p = q := by
  have same : toString p = toString q := (String.append_right_inj "opacity-").mp h
  rw [Nat.toString_eq_ofList_toDigits, Nat.toString_eq_ofList_toDigits, String.ofList_inj] at same
  rw [← Nat.ofDigitChars_ten_toDigits (n := p), same, Nat.ofDigitChars_ten_toDigits]

/-- A percentage as a number: that many hundredths, rounded to nearest. -/
def hundredths (percent : Nat) : Number := .ofDecimal false percent (-2)

/-- The least bound that is not below an opacity, with its percentage. -/
structure IsLeastBound (n bound : Number) (percent : Nat) : Prop where
  mem : (bound, percent) ∈ opacityBounds
  covers : n.le bound
  least : ∀ entry ∈ opacityBounds, n.le entry.1 → bound.le entry.1

section Bounds

variable {n a b bound bound' : Number} {percent percent' : Nat} {entry other : Number × Nat}

/-- Bounds ascend, and their percentages with them. -/
theorem opacityBounds_around {before after : List (Number × Nat)}
    (h : opacityBounds = before ++ entry :: after) :
    (∀ other ∈ before, other.1.lt entry.1 ∧ other.2 < entry.2) ∧
      ∀ other ∈ after, entry.1.lt other.1 ∧ entry.2 < other.2 := by
  have hascend : opacityBounds.Pairwise fun entry other =>
      entry.1.lt other.1 ∧ entry.2 < other.2 := by decide +kernel
  rw [h, List.pairwise_append, List.pairwise_cons] at hascend
  obtain ⟨-, ⟨hafter, -⟩, hbefore⟩ := hascend
  exact ⟨fun other hother => hbefore other hother entry List.mem_cons_self, hafter⟩

/-- A bound is its percentage in hundredths, and none is above the last one. -/
theorem of_mem_opacityBounds (h : entry ∈ opacityBounds) :
    entry.1 = hundredths entry.2 ∧ entry.1.le 0.95 ∧ entry.2 ≤ 100 := by
  have hbounds : ∀ entry ∈ opacityBounds,
      entry.1 = hundredths entry.2 ∧ entry.1.le 0.95 ∧ entry.2 ≤ 100 := by decide +kernel
  exact hbounds entry h

theorem percent_le_of_bound_le (h : entry ∈ opacityBounds) (hother : other ∈ opacityBounds)
    (hle : entry.1.le other.1) : entry.2 ≤ other.2 := by
  obtain ⟨before, after, hsplit⟩ := List.append_of_mem h
  obtain ⟨hbefore, hafter⟩ := opacityBounds_around hsplit
  rw [hsplit, List.mem_append, List.mem_cons] at hother
  rcases hother with hother | rfl | hother
  · exact absurd hle (Number.not_le_of_lt (hbefore other hother).1)
  · exact Nat.le_refl _
  · exact Nat.le_of_lt (hafter other hother).2

/-- The first bound that is not below an opacity is the least one. -/
theorem isLeastBound_of_find? (h : opacityBounds.find? (fun b => n.le b.1) = some entry) :
    IsLeastBound n entry.1 entry.2 := by
  obtain ⟨hcovers, before, after, hsplit, hbefore⟩ := List.find?_eq_some_iff_append.mp h
  refine ⟨List.mem_of_find?_eq_some h, hcovers, fun other hother hle => ?_⟩
  -- Those before the first one do not cover the opacity, and those behind it are above it.
  rw [hsplit, List.mem_append, List.mem_cons] at hother
  rcases hother with hother | rfl | hother
  · have hbelow : n.le other.1 = false := by simpa using hbefore other hother
    exact absurd hle (Bool.eq_false_iff.mp hbelow)
  · exact Number.le_refl (Number.le_iff.mp hle).2.1
  · exact Number.le_of_lt ((opacityBounds_around hsplit).2 other hother).1

/-- What is not above the last bound has a least bound, the one at which its percentage stands. -/
theorem exists_isLeastBound (hpos : (0 : Number).lt n) (h : n.le 0.95) :
    ∃ bound, IsLeastBound n bound (opacityPercent n) := by
  have hlast : ((0.95, 95) : Number × Nat) ∈ opacityBounds := by simp [opacityBounds]
  rw [opacityPercent, if_neg (Number.not_le_of_lt hpos)]
  cases hfound : opacityBounds.find? fun b => n.le b.1 with
  | none => exact absurd h (List.find?_eq_none.mp hfound _ hlast)
  | some entry => exact ⟨entry.1, isLeastBound_of_find? hfound⟩

theorem opacityPercent_nothing (h : n.le 0) : opacityPercent n = 0 := if_pos h

theorem opacityPercent_beyond (h : (0.95 : Number).lt n) : opacityPercent n = 100 := by
  have hpos : (0 : Number).le 0.95 := by decide +kernel
  have hnone : opacityBounds.find? (fun b => n.le b.1) = none := by
    refine List.find?_eq_none.mpr fun entry hentry hle => ?_
    exact Number.not_le_of_lt h (Number.le_trans hle (of_mem_opacityBounds hentry).2.1)
  have hzero : ¬ n.le 0 := fun hle => Number.not_le_of_lt h (Number.le_trans hle hpos)
  rw [opacityPercent, if_neg hzero, hnone, Option.map_none, Option.getD_none]

theorem le_zero_or_pos (h : n.isNaN = false) : n.le 0 ∨ (0 : Number).lt n :=
  Number.le_or_lt h (by decide +kernel)

theorem le_last_or_beyond (h : n.isNaN = false) : n.le 0.95 ∨ (0.95 : Number).lt n :=
  Number.le_or_lt h (by decide +kernel)

/-- A number is not above zero, or within the bounds, or beyond the last one. -/
theorem opacity_cases (h : n.isNaN = false) :
    n.le 0 ∨ ((0 : Number).lt n ∧ n.le 0.95) ∨ (0.95 : Number).lt n := by
  rcases le_zero_or_pos h with hle | hpos
  · exact .inl hle
  rcases le_last_or_beyond h with hle | hbeyond
  · exact .inr (.inl ⟨hpos, hle⟩)
  · exact .inr (.inr hbeyond)

theorem opacityPercent_le (h : n.isNaN = false) : opacityPercent n ≤ 100 := by
  rcases opacity_cases h with hle | ⟨hpos, hle⟩ | hbeyond
  · rw [opacityPercent_nothing hle]
    exact Nat.zero_le _
  · obtain ⟨bound, hbound⟩ := exists_isLeastBound hpos hle
    exact (of_mem_opacityBounds hbound.mem).2.2
  · rw [opacityPercent_beyond hbeyond]

theorem IsLeastBound.percent_le (ha : IsLeastBound a bound percent)
    (hb : IsLeastBound b bound' percent') (h : a.le b) : percent ≤ percent' := by
  have hle : bound.le bound' := ha.least _ hb.mem (Number.le_trans h hb.covers)
  exact percent_le_of_bound_le ha.mem hb.mem hle

/-- A greater opacity never has a smaller percentage. -/
theorem opacityPercent_mono (h : a.le b) : opacityPercent a ≤ opacityPercent b := by
  obtain ⟨ha, hb, -⟩ := Number.le_iff.mp h
  -- Bounds are compared only where the smaller one is above zero and the greater one within them.
  rcases le_last_or_beyond hb with hlast | hbeyond
  · rcases le_zero_or_pos ha with hzero | hpos
    · rw [opacityPercent_nothing hzero]
      exact Nat.zero_le _
    · obtain ⟨bound, hbound⟩ := exists_isLeastBound hpos (Number.le_trans h hlast)
      obtain ⟨bound', hbound'⟩ := exists_isLeastBound (Number.lt_of_lt_of_le hpos h) hlast
      exact hbound.percent_le hbound' h
  · rw [opacityPercent_beyond hbeyond]
    exact opacityPercent_le ha

/-- Up to one, an opacity is at most its percentage. -/
theorem le_hundredths (h : n.le 1) : n.le (hundredths (opacityPercent n)) := by
  have hnothing : hundredths 0 = 0 := by decide +kernel
  have hfull : hundredths 100 = 1 := by decide +kernel
  rcases opacity_cases (Number.le_iff.mp h).1 with hzero | ⟨hpos, hle⟩ | hbeyond
  · rwa [opacityPercent_nothing hzero, hnothing]
  · obtain ⟨bound, hbound⟩ := exists_isLeastBound hpos hle
    rw [← (of_mem_opacityBounds hbound.mem).1]
    exact hbound.covers
  · rwa [opacityPercent_beyond hbeyond, hfull]

/-- The comparisons with zero and with the bounds decide. -/
theorem opacityPercent_congr (hzero : a.le 0 = b.le 0)
    (h : ∀ entry ∈ opacityBounds, a.le entry.1 = b.le entry.1) :
    opacityPercent a = opacityPercent b := by
  rw [opacityPercent, opacityPercent, hzero, List.find?_congr h]

end Bounds

section Classes

variable {value : Scalar} {n : Number}

theorem opacityClass?_eq_none_iff :
    opacityClass? value = none ↔ ∀ n, value.toNumber? = some n → n.isNaN := by
  unfold opacityClass?
  cases value.toNumber? with
  | none => simp
  | some n => cases n.isNaN <;> simp

theorem opacityClass?_eq (h : value.toNumber? = some n) (hn : n.isNaN = false) :
    opacityClass? value = some (opacityName (opacityPercent n)) := by
  unfold opacityClass?
  rw [h]
  exact if_neg (Bool.eq_false_iff.mp hn)

/-- A value without a number, or with a NaN for it, has no class. Of all other values, one that is
not above zero has the class of nothing, one beyond the last bound that of a hundred, and every
other one that of the least bound that is not below it. So a greater value never has a smaller
percentage, and a value up to one is at most its percentage. Values that compare alike with zero and
with the bounds have the same class. -/
theorem opacity_classes_ascend :
    (∀ value, opacityClass? value = none ↔ ∀ n, value.toNumber? = some n → n.isNaN) ∧
    (∀ value n, value.toNumber? = some n →
      (n.le 0 → opacityClass? value = some (opacityName 0)) ∧
      ((0 : Number).lt n → n.le 0.95 → ∃ bound percent, IsLeastBound n bound percent ∧
        opacityClass? value = some (opacityName percent)) ∧
      ((0.95 : Number).lt n → opacityClass? value = some (opacityName 100))) ∧
    (∀ lower upper a b, lower.toNumber? = some a → upper.toNumber? = some b → a.le b →
      ∃ small large, opacityClass? lower = some (opacityName small) ∧
        opacityClass? upper = some (opacityName large) ∧ small ≤ large) ∧
    (∀ value n percent, value.toNumber? = some n → n.le 1 →
      opacityClass? value = some (opacityName percent) → n.le (hundredths percent)) ∧
    ∀ value other a b, value.toNumber? = some a → other.toNumber? = some b → a.isNaN = b.isNaN →
      a.le 0 = b.le 0 → (∀ entry ∈ opacityBounds, a.le entry.1 = b.le entry.1) →
      opacityClass? value = opacityClass? other := by
  refine ⟨fun _ => opacityClass?_eq_none_iff, fun value n hvalue => ⟨?nothing, ?bound, ?beyond⟩,
    ?mono, ?cover, ?compare⟩
  case nothing =>
    intro hzero
    rw [opacityClass?_eq hvalue (Number.le_iff.mp hzero).1, opacityPercent_nothing hzero]
  case bound =>
    intro hpos hlast
    obtain ⟨bound, hbound⟩ := exists_isLeastBound hpos hlast
    exact ⟨bound, _, hbound, opacityClass?_eq hvalue (Number.le_iff.mp hlast).1⟩
  case beyond =>
    intro hbeyond
    rw [opacityClass?_eq hvalue (Number.lt_iff.mp hbeyond).2.1, opacityPercent_beyond hbeyond]
  case mono =>
    intro lower upper a b hlower hupper h
    obtain ⟨ha, hb, -⟩ := Number.le_iff.mp h
    exact ⟨_, _, opacityClass?_eq hlower ha, opacityClass?_eq hupper hb, opacityPercent_mono h⟩
  case cover =>
    intro value n percent hvalue hone hclass
    rw [opacityClass?_eq hvalue (Number.le_iff.mp hone).1] at hclass
    rw [← opacityName_inj (Option.some.inj hclass)]
    exact le_hundredths hone
  case compare =>
    intro value other a b hvalue hother hNaN hzero hbounds
    unfold opacityClass?
    rw [hvalue, hother]
    simp only [hNaN, opacityPercent_congr hzero hbounds]

/-- The opacities of a fade: a zero of negative sign, one between two bounds that a text begins
with, another between the same bounds, and one beyond the last bound. -/
theorem fade_classes_ascend :
    (Scalar.text " .31 of it").toNumber? = some 0.31 ∧ (0.31 : Number).le 0.97 ∧
    opacityClass? (.text " .31 of it") = some (opacityName 40) ∧
    opacityClass? (.text "-0") = some (opacityName 0) ∧
    (∃ bound percent, IsLeastBound 0.31 bound percent ∧
      opacityClass? (.text " .31 of it") = some (opacityName percent)) ∧
    opacityClass? (.number 0.97) = some (opacityName 100) ∧
    (∃ small large, opacityClass? (.text " .31 of it") = some (opacityName small) ∧
      opacityClass? (.number 0.97) = some (opacityName large) ∧ small ≤ large) ∧
    (0.31 : Number).le (hundredths 40) ∧
    opacityClass? (.text " .31 of it") = opacityClass? (.number 0.39) := by
  have start : (Scalar.text "-0").toNumber? = some (Number.negate 0) := by decide +kernel
  have early : (Scalar.text " .31 of it").toNumber? = some 0.31 := by decide +kernel
  have rising : (0.31 : Number).le 0.97 := by decide +kernel
  have shown : opacityClass? (.text " .31 of it") = some (opacityName 40) := by decide +kernel
  obtain ⟨-, one, order, cover, compare⟩ := opacity_classes_ascend
  refine ⟨early, rising, shown, ?start, ?early, ?late, ?order, ?cover, ?compare⟩
  case start => exact (one _ _ start).1 (by decide +kernel)
  case early => exact (one _ _ early).2.1 (by decide +kernel) (by decide +kernel)
  case late => exact (one (.number 0.97) 0.97 rfl).2.2 (by decide +kernel)
  case order => exact order _ (.number 0.97) _ 0.97 early rfl rising
  case cover => exact cover _ _ 40 early (by decide +kernel) shown
  case compare =>
    exact compare _ (.number 0.39) _ 0.39 early rfl (by decide +kernel) (by decide +kernel)
      (by decide +kernel)

end Classes

end Pagewright
