import Pagewright.Proofs.Number.Rounding

/-!
Decimals are rounded to the nearest number: digits and a power of ten are multiplied or divided, and
the product or the quotient is rounded once.
-/

namespace Pagewright

namespace Number

open Float.Model Float.Model.UnpackedFloat

/-- The rational that a finite number stands for. -/
def toRat (n : Number) : ℚ := (if n.isNegative then -1 else 1) * (n.significand * 2 ^ n.exponent)

/-- A finite number as near to a rational as any other, and with an even significand where another
one is equally near. -/
structure IsNearest (x : ℚ) (n : Number) : Prop where
  finite : n.isFinite
  nearest : ∀ other : Number, other.isFinite → |n.toRat - x| ≤ |other.toRat - x|
  even : ∀ other : Number, other.isFinite → other.toRat ≠ n.toRat →
    |other.toRat - x| = |n.toRat - x| → Even n.significand

/-- Halfway from the greatest finite number to the power of two behind it. -/
def overflowBound : ℚ := 2 ^ 1024 - 2 ^ 970

/-- What a rational, given by its sign and its magnitude, is rounded to. The sign stays, also on a
zero. -/
structure Rounds (negative : Bool) (x : ℚ) (n : Number) : Prop where
  sign : n.isNegative = negative
  nearest : x < overflowBound → IsNearest ((if negative then -1 else 1) * x) n
  overflow : overflowBound ≤ x → n = withSign negative infinity

section Settled

variable {x : ℚ} {place : ℤ} {r : ℕ}

theorem toRat_of_nonneg {n : Number} (h : n.isNegative = false) :
    n.toRat = n.significand * 2 ^ n.exponent := by
  rw [toRat, h, if_neg Bool.false_ne_true, one_mul]

theorem HasPlace.le_significand (h : HasPlace x place) (hr : RoundsTo (x / 2 ^ place) r) :
    place = -1074 ∨ 2 ^ 52 ≤ r := by
  refine h.lower.imp_right fun hlower => ?_
  have hfull : 2 ^ 52 ≤ x / 2 ^ place := (le_div_iff₀ (by positivity)).mpr hlower
  have hlt : ((2 ^ 52 : ℕ) : ℚ) < (r + 1 : ℕ) := by
    push_cast
    linarith [(abs_le.mp hr.1).1]
  exact Nat.lt_succ_iff.mp (by exact_mod_cast hlt)

/-- The value of a significand at a place that the format reaches. -/
theorem settle_finite (hr : r ≤ 2 ^ 53) (hplace : -1074 ≤ place)
    (hfull : place = -1074 ∨ 2 ^ 52 ≤ r) (hsmall : place < 971 ∨ place = 971 ∧ r ≠ 2 ^ 53) :
    let n := ofUnpacked (settle r place)
    n.isNegative = false ∧ n.isFinite ∧ n.toRat = r * 2 ^ place ∧
      (Even r → Even n.significand) := by
  intro n
  by_cases hzero : r = 0
  · subst hzero
    have hn : n = ⟨0⟩ := rfl
    have hsignificand : (⟨0⟩ : Number).significand = 0 := rfl
    rw [hn, toRat, hsignificand]
    exact ⟨by decide, by decide, by simp, id⟩
  by_cases hlong : r = 2 ^ 53
  · have hn : n = ofUnpacked (.finite .positive (2 ^ 52) (place + 1) (by decide)) :=
      congrArg ofUnpacked ((dif_neg hzero).trans (if_pos hlong))
    obtain ⟨hsign, hfinite, hsignificand, hexponent⟩ := ofUnpacked_finite
      (Nat.two_pow_pos 52) (e := place + 1) (by omega) (by decide) (.inr ⟨by omega, le_rfl⟩)
    rw [← hn] at hsign hfinite hsignificand hexponent
    refine ⟨hsign, hfinite, ?_, fun _ => ?_⟩
    · rw [toRat_of_nonneg hsign, hsignificand, hexponent, hlong, zpow_add_one₀ two_ne_zero]
      push_cast
      ring
    · rw [hsignificand]
      decide
  · have hn : n = ofUnpacked (.finite .positive r place (Nat.pos_of_ne_zero hzero)) :=
      congrArg ofUnpacked ((dif_neg hzero).trans (if_neg hlong))
    obtain ⟨hsign, hfinite, hsignificand, hexponent⟩ := ofUnpacked_finite
      (Nat.pos_of_ne_zero hzero) (by omega) (by omega)
      (hfull.imp_right fun h => ⟨hplace, h⟩)
    rw [← hn] at hsign hfinite hsignificand hexponent
    refine ⟨hsign, hfinite, ?_, ?_⟩
    · rw [toRat_of_nonneg hsign, hsignificand, hexponent]
    · rw [hsignificand]
      exact id

theorem settle_large (hfull : 2 ^ 52 ≤ r) (hlarge : 971 < place ∨ place = 971 ∧ r = 2 ^ 53) :
    ofUnpacked (settle r place) = infinity := by
  have hzero : r ≠ 0 := by omega
  by_cases hlong : r = 2 ^ 53
  · rw [settle, dif_neg hzero, if_pos hlong]
    exact ofUnpacked_large _ (by omega)
  · rw [settle, dif_neg hzero, if_neg hlong]
    exact ofUnpacked_large _ (by omega)

private theorem overflowBound_eq : overflowBound = (2 ^ 53 - 1 / 2) * 2 ^ (971 : ℤ) := by
  have hnext : (2 : ℚ) ^ (971 : ℤ) = 2 ^ 970 * 2 := by
    rw [← pow_succ]
    exact zpow_natCast 2 971
  rw [overflowBound, hnext, pow_add 2 54 970]
  generalize (2 : ℚ) ^ 970 = unit
  ring

/-- Of the significands that are rounded to the greatest one and a unit more, the tie is the least,
since the greatest one is odd. -/
private theorem RoundsTo.eq_last_iff {z : ℚ} (hr : RoundsTo z r) (hbound : r ≤ 2 ^ 53)
    (hz : z < 2 ^ 53) : 2 ^ 53 - 1 / 2 ≤ z ↔ r = 2 ^ 53 := by
  obtain ⟨hlow, hhigh⟩ := abs_le.mp hr.1
  constructor
  · intro htop
    by_contra hne
    have hless : ((r + 1 : ℕ) : ℚ) ≤ (2 ^ 53 : ℕ) := Nat.cast_le.mpr (by omega)
    push_cast at hless
    have hlast : r + 1 = 2 ^ 53 := by
      have heq : ((r + 1 : ℕ) : ℚ) = (2 ^ 53 : ℕ) := by
        push_cast
        linarith
      exact_mod_cast heq
    have htie : |(r : ℚ) - z| = 1 / 2 := by
      rw [abs_of_nonpos (by linarith)]
      linarith
    have heven := hr.2 htie
    rw [Nat.even_iff] at heven
    omega
  · rintro rfl
    push_cast at hhigh
    linarith

theorem overflows_iff (hplace : HasPlace x place) (hr : RoundsTo (x / 2 ^ place) r) :
    overflowBound ≤ x ↔ 971 < place ∨ place = 971 ∧ r = 2 ^ 53 := by
  have hpos : (0 : ℚ) < 2 ^ (971 : ℤ) := by positivity
  rw [overflowBound_eq]
  rcases lt_trichotomy place 971 with hlt | rfl | hgt
  · refine iff_of_false (not_le.mpr ?_) (by omega)
    have hupper := hplace.upper
    have hpow : (2 : ℚ) ^ place * 2 ≤ 2 ^ (971 : ℤ) := by
      rw [← zpow_add_one₀ two_ne_zero]
      exact zpow_le_zpow_right₀ one_le_two (by omega)
    generalize (2 : ℚ) ^ place = unit at *
    generalize (2 : ℚ) ^ (971 : ℤ) = top at *
    linarith
  · have hupper : x / 2 ^ (971 : ℤ) < 2 ^ 53 := (div_lt_iff₀ hpos).mpr hplace.upper
    rw [← le_div_iff₀ hpos, hr.eq_last_iff (hplace.significand_le hr) hupper]
    simp
  · refine iff_of_true ?_ (.inl hgt)
    have hlower := hplace.lower.resolve_left (by omega)
    have hpow : (2 : ℚ) ^ (971 : ℤ) * 2 ≤ 2 ^ place := by
      rw [← zpow_add_one₀ two_ne_zero]
      exact zpow_le_zpow_right₀ one_le_two (by omega)
    generalize (2 : ℚ) ^ place = unit at *
    generalize (2 : ℚ) ^ (971 : ℤ) = top at *
    linarith

theorem le_exponent (n : Number) : -1074 ≤ n.exponent := by
  rw [exponent]
  generalize n.magnitude / leadingWeight = field
  split <;> omega

theorem significand_lt (n : Number) : n.significand < 2 ^ 53 := by
  rw [significand]
  split
  · next hfield =>
    simp only [leadingWeight] at hfield
    omega
  · simp only [leadingWeight]
    omega

/-- A number is made of whole units of a place, unless it is too small for the place. -/
theorem toRat_of_place (n : Number) (place : ℤ) :
    (∃ j : ℤ, n.toRat = j * 2 ^ place) ∨ -1074 < place ∧ n.toRat < 2 ^ 52 * 2 ^ place := by
  have hleast := n.le_exponent
  by_cases hplace : place ≤ n.exponent
  · have hpow : (2 : ℚ) ^ n.exponent = 2 ^ (n.exponent - place).toNat * 2 ^ place := by
      rw [← zpow_natCast, ← zpow_add₀ two_ne_zero]
      congr 1
      omega
    refine .inl ⟨(if n.isNegative then -1 else 1) *
      (n.significand * 2 ^ (n.exponent - place).toNat), ?_⟩
    rw [toRat, hpow]
    push_cast
    ring
  · refine .inr ⟨by omega, ?_⟩
    have hpos : (0 : ℚ) < 2 ^ n.exponent := by positivity
    have hpow : (2 : ℚ) ^ n.exponent * 2 ≤ 2 ^ place := by
      rw [← zpow_add_one₀ two_ne_zero]
      exact zpow_le_zpow_right₀ one_le_two (by omega)
    have hlt : (n.significand : ℚ) < 2 ^ 53 := by exact_mod_cast n.significand_lt
    have hmagnitude : (n.significand : ℚ) * 2 ^ n.exponent < 2 ^ 52 * 2 ^ place :=
      calc (n.significand : ℚ) * 2 ^ n.exponent < 2 ^ 53 * 2 ^ n.exponent :=
            mul_lt_mul_of_pos_right hlt hpos
        _ = 2 ^ 52 * (2 ^ n.exponent * 2) := by ring
        _ ≤ 2 ^ 52 * 2 ^ place := mul_le_mul_of_nonneg_left hpow (by positivity)
    have hnonneg : (0 : ℚ) ≤ n.significand * 2 ^ n.exponent := by positivity
    rw [toRat]
    split <;> linarith

theorem isNearest_of_place {n : Number} (hfinite : n.isFinite) (hplace : HasPlace x place)
    (hr : RoundsTo (x / 2 ^ place) r) (hvalue : n.toRat = r * 2 ^ place)
    (heven : Even r → Even n.significand) : IsNearest x n := by
  have hpos : (0 : ℚ) < 2 ^ place := by positivity
  have hdistance (q : ℚ) : |q * 2 ^ place - x| = |q - x / 2 ^ place| * 2 ^ place := by
    have hscale : q * 2 ^ place - x = (q - x / 2 ^ place) * 2 ^ place := by
      rw [sub_mul, div_mul_cancel₀ _ hpos.ne']
    rw [hscale, abs_mul, abs_of_pos hpos]
  have hunits (j : ℤ) : |n.toRat - x| ≤ |j * 2 ^ place - x| := by
    rw [hvalue, hdistance, hdistance]
    exact mul_le_mul_of_nonneg_right (hr.le_abs j) hpos.le
  have hsmall {other : Number} (hleast : -1074 < place) (hlt : other.toRat < 2 ^ 52 * 2 ^ place) :
      |n.toRat - x| < |other.toRat - x| := by
    have hx := hplace.lower.resolve_left hleast.ne'
    have hfull := hunits (2 ^ 52)
    rw [Int.cast_pow, Int.cast_ofNat] at hfull
    rw [abs_of_nonpos (by linarith : 2 ^ 52 * 2 ^ place - x ≤ 0)] at hfull
    rw [abs_of_neg (by linarith : other.toRat - x < 0)]
    linarith
  refine ⟨hfinite, fun other _ => ?_, fun other _ hne htie => heven ?_⟩
  · rcases other.toRat_of_place place with ⟨j, hj⟩ | ⟨hleast, hlt⟩
    · rw [hj]
      exact hunits j
    · exact (hsmall hleast hlt).le
  · rcases other.toRat_of_place place with ⟨j, hj⟩ | ⟨hleast, hlt⟩
    · rw [hj, hvalue, hdistance, hdistance] at htie
      refine hr.even_of_tie (j := j) ?_ (mul_right_cancel₀ hpos.ne' htie)
      rintro rfl
      exact hne (by rw [hj, hvalue, Int.cast_natCast])
    · exact absurd htie (hsmall hleast hlt).ne'

theorem rounds_settle (hplace : HasPlace x place) (hr : RoundsTo (x / 2 ^ place) r) :
    Rounds false x (ofUnpacked (settle r place)) := by
  have hbound := hplace.significand_le hr
  have hfull := hplace.le_significand hr
  have hoverflow := overflows_iff hplace hr
  by_cases hlarge : 971 < place ∨ place = 971 ∧ r = 2 ^ 53
  · rw [settle_large (by omega) hlarge]
    exact ⟨by decide, fun h => absurd h (not_lt.mpr (hoverflow.mpr hlarge)), fun _ => rfl⟩
  · obtain ⟨hsign, hfinite, hvalue, heven⟩ :=
      settle_finite hbound hplace.least hfull (by omega)
    have hnearest := isNearest_of_place hfinite hplace hr hvalue heven
    rw [← one_mul x] at hnearest
    exact ⟨hsign, fun _ => hnearest, fun h => absurd (hoverflow.mp h) hlarge⟩

end Settled

section Operations

variable {m m₁ m₂ k : ℕ} {e₁ e₂ : ℤ}

/-- A significand of full precision or more is rounded once. -/
theorem rounds_exact (hm : 52 ≤ m.log2) (e : ℤ) : Rounds false (m * 2 ^ e)
    (ofUnpacked (roundWithAccuracy Format.binary64 .positive m e .exact)) := by
  have hx : Represents (.ofMantissaAndAccuracy m .exact) (m * 2 ^ e / 2 ^ e : ℚ) := by
    rw [mul_div_cancel_right₀ _ (by positivity)]
    exact .exact m
  obtain ⟨place, r, hplace, hr, hround⟩ := exists_settle hx (by omega)
  rw [hround]
  exact rounds_settle hplace hr

private theorem le_log2_quotient (hm₁ : 0 < m₁) (hm₂ : 0 < m₂)
    (hk : m₂.log2 + 53 ≤ m₁.log2 + k) : 52 ≤ (m₁ <<< k / m₂).log2 := by
  have hquotient : 2 ^ 52 ≤ m₁ <<< k / m₂ := by
    rw [Nat.le_div_iff_mul_le hm₂]
    calc 2 ^ 52 * m₂ ≤ 2 ^ 52 * 2 ^ (m₂.log2 + 1) := Nat.mul_le_mul_left _ Nat.lt_log2_self.le
      _ = 2 ^ (m₂.log2 + 53) := by rw [← Nat.pow_add]; congr 1; omega
      _ ≤ 2 ^ (m₁.log2 + k) := Nat.pow_le_pow_right (by decide) hk
      _ = 2 ^ m₁.log2 * 2 ^ k := Nat.pow_add _ _ _
      _ ≤ m₁ * 2 ^ k := Nat.mul_le_mul_right _ (Nat.log2_self_le hm₁.ne')
      _ = m₁ <<< k := (Nat.shiftLeft_eq m₁ k).symm
  exact (Nat.le_log2 (by omega)).mpr hquotient

/-- A division is carried so far that the quotient has full precision. -/
theorem rounds_div (hm₁ : 0 < m₁) (hm₂ : 0 < m₂) : Rounds false (m₁ * 2 ^ e₁ / (m₂ * 2 ^ e₂))
    (ofUnpacked (UnpackedFloat.div Format.binary64 (.finite .positive m₁ e₁ hm₁)
      (.finite .positive m₂ e₂ hm₂))) := by
  let quotient := divCore Format.binary64 m₁ e₁ m₂ e₂
  change Rounds false _ (ofUnpacked
    (roundWithAccuracy Format.binary64 .positive quotient.1 quotient.2.1 quotient.2.2))
  simp only [quotient, divCore, targetExponent_eq, totalExponent]
  generalize htarget : min (e₁ - e₂)
    (max ((m₁.log2 : ℤ) + 1 + e₁ - (m₂.log2 + 1 + e₂) - 53) (-1074)) = target
  generalize hk : (e₁ - e₂ - target).toNat = k
  have hx : (m₁ * 2 ^ e₁ / (m₂ * 2 ^ e₂) / 2 ^ target : ℚ) = (m₁ <<< k : ℕ) / m₂ := by
    have hexponent : (2 : ℚ) ^ e₁ = 2 ^ k * (2 ^ e₂ * 2 ^ target) := by
      rw [← zpow_natCast, ← zpow_add₀ two_ne_zero, ← zpow_add₀ two_ne_zero]
      congr 1
      omega
    rw [hexponent, Nat.shiftLeft_eq]
    push_cast
    field_simp
  have hlong : target ≤ max ((m₁ <<< k / m₂).log2 + target - 52) (-1074) := by
    by_cases hleast : target ≤ -1074
    · omega
    have hfull := le_log2_quotient (k := k) hm₁ hm₂ (by omega)
    omega
  obtain ⟨place, r, hplace, hr, hround⟩ :=
    exists_settle (hx ▸ Represents.fraction (m₁ <<< k) hm₂) hlong
  rw [hround]
  exact rounds_settle hplace hr

end Operations

section Operands

/-- A value of the format of full precision is not changed by rounding. -/
private theorem round_full {m : ℕ} {e : ℤ} (hm : m.log2 = 52) (he : -1074 ≤ e) :
    ∃ hpos,
      roundWithAccuracy Format.binary64 .positive m e .exact = .finite .positive m e hpos := by
  obtain ⟨k, r, k', hround, hr, hk, hk', -⟩ := exists_round .positive m e .exact
  have hnone : k = 0 := by omega
  subst hnone
  have hsame : r = m := hr
  subst hsame
  have hnone' : k' = 0 := by omega
  have hpos : 0 < r := by
    rcases Nat.eq_zero_or_pos r with rfl | hpos
    · cases hm
    · exact hpos
  refine ⟨hpos, ?_⟩
  rw [hround, dif_neg (by rw [hnone', Nat.pow_zero, Nat.div_one]; exact hpos.ne')]
  exact finite_congr (by rw [hnone', Nat.pow_zero, Nat.div_one]) (by rw [hnone']; simp)

private theorem unpack_full {n : Number} (hsign : n.isNegative = false) (hfinite : n.isFinite)
    (hlog : n.significand.log2 = 52) : ∃ m e hm,
      UnpackedFloat.unpack Format.binary64 n.bits.toBitVec = .finite .positive m e hm ∧
        m.log2 = 52 ∧ (m * 2 ^ e : ℚ) = n.toRat := by
  obtain ⟨-, hzero⟩ | ⟨hm, hunpack⟩ := unpack_finite hfinite
  · rw [hzero] at hlog
    cases hlog
  · rw [Number.sign, hsign] at hunpack
    exact ⟨_, _, hm, hunpack, hlog, (toRat_of_nonneg hsign).symm⟩

/-- A natural number of the precision of the format is converted exactly. -/
private theorem unpack_ofNat {n : ℕ} (hpos : 0 < n) (hn : n < 2 ^ 53) : ∃ m e hm,
    UnpackedFloat.unpack Format.binary64
        (ofUnpacked (UnpackedFloat.ofNat Format.binary64 n)).bits.toBitVec =
      .finite .positive m e hm ∧ m.log2 = 52 ∧ (m * 2 ^ e : ℚ) = n := by
  have hshort : n.log2 ≤ 52 := log2_le_of_lt hn
  have hshift : (0 - Format.binary64.targetExponent (totalExponent n 0)).toNat = 52 - n.log2 := by
    rw [targetExponent_eq, totalExponent]
    omega
  have hlog : (n <<< (52 - n.log2)).log2 = 52 := by
    rw [log2_shiftLeft hpos.ne']
    omega
  obtain ⟨hm, hround⟩ := round_full hlog (e := 0 - (52 - n.log2 : ℕ)) (by omega)
  have hofNat : UnpackedFloat.ofNat Format.binary64 n =
      .finite .positive (n <<< (52 - n.log2)) (0 - (52 - n.log2 : ℕ)) hm := by
    rw [UnpackedFloat.ofNat, UnpackedFloat.ofInt, UnpackedFloat.normalize,
      Int.compare_eq_gt.mpr (by omega)]
    change UnpackedFloat.round Format.binary64 .positive n 0 = _
    rw [UnpackedFloat.round, decreaseExponent, hshift]
    exact hround
  obtain ⟨hlower, hupper⟩ := (Nat.log2_eq_iff hm.ne').mp hlog
  obtain ⟨hsign, hfinite, hsignificand, hexponent⟩ := ofUnpacked_finite hm
    (e := 0 - (52 - n.log2 : ℕ)) (by omega) hupper (.inr ⟨by omega, hlower⟩)
  rw [← hsignificand] at hlog
  rw [hofNat]
  obtain ⟨m, e, hpos', hunpack, hfull, hvalue⟩ := unpack_full hsign hfinite hlog
  refine ⟨m, e, hpos', hunpack, hfull, ?_⟩
  rw [hvalue, toRat_of_nonneg hsign, hsignificand, hexponent, Nat.shiftLeft_eq, zero_sub]
  push_cast
  rw [zpow_neg, zpow_natCast]
  field_simp

/-- The powers of ten that the format has exactly. -/
private def tablePower (k : Fin 23) : Float :=
  have inside : k.val < Float.exactlyRepresentablePowersOfTen.size := k.isLt
  Float.exactlyRepresentablePowersOfTen[k.val]

private theorem unpack_tablePower (k : Fin 23) : ∃ m e hm,
    (tablePower k).toModel.unpack = .finite .positive m e hm ∧ m.log2 = 52 ∧
      (m * 2 ^ e : ℚ) = 10 ^ k.val := by
  have table : ∀ k : Fin 23, let power := ofFloat (tablePower k)
      power.isNegative = false ∧ power.isFinite ∧ power.significand.log2 = 52 ∧
        0 ≤ power.exponent + 52 ∧
        power.significand * 2 ^ (power.exponent + 52).toNat = 10 ^ k.val * 2 ^ 52 := by
    decide +kernel
  obtain ⟨hsign, hfinite, hlog, hexponent, hvalue⟩ := table k
  obtain ⟨m, e, hm, hunpack, hfull, hrat⟩ := unpack_full hsign hfinite hlog
  refine ⟨m, e, hm, hunpack, hfull, ?_⟩
  rw [hrat, toRat_of_nonneg hsign]
  generalize (ofFloat _).significand = significand at hvalue ⊢
  generalize (ofFloat _).exponent = exponent at hexponent hvalue ⊢
  have hpow : (2 : ℚ) ^ (exponent + 52).toNat = 2 ^ exponent * 2 ^ 52 := by
    rw [← zpow_natCast, Int.toNat_of_nonneg hexponent, zpow_add₀ two_ne_zero]
    rfl
  have hscaled : (significand : ℚ) * (2 ^ exponent * 2 ^ 52) = 10 ^ k.val * 2 ^ 52 := by
    rw [← hpow]
    exact_mod_cast hvalue
  rw [← mul_assoc] at hscaled
  exact mul_right_cancel₀ (by positivity) hscaled

end Operands

section Decimals

variable {x : ℚ} {m k : ℕ}

/-- What is less than half of the least positive number is rounded to zero. -/
private theorem rounds_zero (hx : 0 ≤ x) (hsmall : x < 2 ^ (-1075 : ℤ)) :
    Rounds false x (ofFloat 0) := by
  have hzero : ofFloat 0 = ofUnpacked (settle 0 (-1074)) := by decide +kernel
  have hhalf : (2 : ℚ) ^ (-1074 : ℤ) = 2 ^ (-1075 : ℤ) * 2 := zpow_add_one₀ two_ne_zero (-1075)
  have hpos : (0 : ℚ) < 2 ^ (-1075 : ℤ) := by positivity
  have hquotient : x / 2 ^ (-1074 : ℤ) < 1 / 2 := by
    rw [hhalf, div_lt_iff₀ (by positivity)]
    linarith
  have hnonneg : 0 ≤ x / 2 ^ (-1074 : ℤ) := by positivity
  rw [hzero]
  refine rounds_settle ⟨le_rfl, ?_, .inl rfl⟩ ⟨?_, fun _ => Even.zero⟩
  · rw [hhalf]
    linarith
  · rw [Nat.cast_zero, zero_sub, abs_neg, abs_of_nonneg hnonneg]
    exact hquotient.le

private theorem rounds_infinity (hlarge : overflowBound ≤ x) : Rounds false x infinity where
  sign := by decide
  nearest h := absurd h (not_lt.mpr hlarge)
  overflow _ := rfl

/-- Digits and a power of ten that are both exact are multiplied or divided once. -/
private theorem ofScientific_fast (hm : m < 2 ^ 53) (hk : k < 23) (down : Bool) :
    ofFloat (Float.ofScientific m down k) =
      ofUnpacked ((if down then UnpackedFloat.div else UnpackedFloat.mul) Format.binary64
        (UnpackedFloat.unpack Format.binary64 (ofUnpacked (.ofNat Format.binary64 m)).bits.toBitVec)
        (tablePower ⟨k, hk⟩).toModel.unpack) := by
  have wide : m.toUInt64.toNat = m := Nat.mod_eq_of_lt (by omega)
  have float : m.toUInt64.toFloat = .ofModel (.pack (.ofNat Format.binary64 m)) := by
    change Float.ofModel (.pack (.ofNat Format.binary64 m.toUInt64.toNat)) = _
    rw [wide]
  rw [Float.ofScientific, dif_pos ⟨hm, Nat.le_of_lt_succ hk⟩, float]
  cases down <;> rfl

private theorem rounds_fast (hpos : 0 < m) (hm : m < 2 ^ 53) (hk : k ≤ 22) (down : Bool) :
    Rounds false (if down then m / 10 ^ k else m * 10 ^ k)
      (ofFloat (Float.ofScientific m down k)) := by
  obtain ⟨m₁, e₁, hm₁, hdigits, hlog₁, hvalue₁⟩ := unpack_ofNat hpos hm
  obtain ⟨m₂, e₂, hm₂, hpower, hlog₂, hvalue₂⟩ := unpack_tablePower ⟨k, Nat.lt_succ_of_le hk⟩
  dsimp only at hvalue₂
  rw [ofScientific_fast hm (Nat.lt_succ_of_le hk), hdigits, hpower, ← hvalue₁, ← hvalue₂]
  cases down with
  | false =>
    have hproduct : 52 ≤ (m₁ * m₂).log2 := by
      rw [Nat.le_log2 (Nat.mul_ne_zero hm₁.ne' hm₂.ne')]
      have hfull : 2 ^ 52 ≤ m₁ := hlog₁ ▸ Nat.log2_self_le hm₁.ne'
      exact hfull.trans (Nat.le_mul_of_pos_right m₁ hm₂)
    have hvalue : (m₁ * 2 ^ e₁ * (m₂ * 2 ^ e₂) : ℚ) = (m₁ * m₂ : ℕ) * 2 ^ (e₁ + e₂) := by
      rw [zpow_add₀ two_ne_zero]
      push_cast
      ring
    rw [if_neg Bool.false_ne_true, if_neg Bool.false_ne_true, hvalue]
    exact rounds_exact hproduct (e₁ + e₂)
  | true =>
    rw [if_pos rfl, if_pos rfl]
    exact rounds_div hm₁ hm₂

/-- Other decimals are multiplied or divided as whole numbers. -/
private theorem rounds_up (hpos : 0 < m) (hslow : ¬ (m < 2 ^ 53 ∧ k ≤ 22)) (hk : k ≤ 2048) :
    Rounds false (m * 10 ^ k) (ofFloat (Float.ofScientific m false k)) := by
  have hvalue : (m * 10 ^ k : ℚ) = ((m * 10 ^ k) <<< 53 : ℕ) * 2 ^ (-53 : ℤ) := by
    rw [Nat.shiftLeft_eq, zpow_neg]
    push_cast
    field_simp
  have hlong : 52 ≤ ((m * 10 ^ k) <<< 53).log2 := by
    rw [log2_shiftLeft (by positivity)]
    omega
  rw [Float.ofScientific, dif_neg hslow]
  change Rounds false _ (ofUnpacked (.ofScientific Format.binary64 m k))
  rw [ofScientific_eq hpos.ne' hk, hvalue]
  exact rounds_exact hlong _

private theorem rounds_down (hpos : 0 < m) (hslow : ¬ (m < 2 ^ 53 ∧ k ≤ 22)) (hk : 0 < k)
    (hsize : k ≤ 2048 + m.log2) :
    Rounds false (m / 10 ^ k) (ofFloat (Float.ofScientific m true k)) := by
  have hdiv : UnpackedFloat.ofScientific Format.binary64 m (-k) =
      .div Format.binary64 (.finite .positive m 0 hpos)
        (.finite .positive (10 ^ k) 0 (Nat.pow_pos (by decide))) := by
    have hlow : ¬ ((-k : ℤ) > 2 ^ Format.binary64.exponentBits) := by
      have : (0 : ℤ) < 2 ^ Format.binary64.exponentBits := by decide
      omega
    have hhigh : ¬ ((-k : ℤ) < -(2 ^ Format.binary64.exponentBits + m.log2)) := by
      have : (2 ^ Format.binary64.exponentBits : ℤ) = 2048 := by decide
      omega
    have hpower : (- -(k : ℤ)).toNat = k := by omega
    rw [UnpackedFloat.ofScientific, dif_neg hpos.ne', if_neg hlow, if_neg hhigh, if_neg (by omega)]
    exact congrArg _ (finite_congr (by rw [hpower]) rfl)
  have hneg : Int.negOfNat k = -k := Int.negOfNat_eq
  have hvalue : (m / 10 ^ k : ℚ) = m * 2 ^ (0 : ℤ) / ((10 ^ k : ℕ) * 2 ^ (0 : ℤ)) := by
    push_cast
    simp
  rw [Float.ofScientific, dif_neg hslow]
  change Rounds false _ (ofUnpacked (.ofScientific Format.binary64 m (.negOfNat k)))
  rw [hneg, hdiv, hvalue]
  exact rounds_div hpos _

/-- Ten is between the third and the fourth power of two, so a decimal that is cut off for its
exponent is far outside the format. -/
private theorem overflows_of_exponent (hpos : 0 < m) (hk : 400 < k) :
    overflowBound ≤ m * 10 ^ k := by
  have hone : (1 : ℚ) ≤ m := by exact_mod_cast hpos
  calc overflowBound ≤ 2 ^ 1024 := sub_le_self _ (by positivity)
    _ ≤ 2 ^ (3 * k) := pow_le_pow_right₀ one_le_two (by omega)
    _ = 8 ^ k := by rw [pow_mul]; norm_num
    _ ≤ 10 ^ k := pow_le_pow_left₀ (by norm_num) (by norm_num) k
    _ ≤ m * 10 ^ k := le_mul_of_one_le_left (by positivity) hone

private theorem vanishes_of_exponent (hk : m.log2 + 1 + 1100 < 3 * k) :
    (m / 10 ^ k : ℚ) < 2 ^ (-1075 : ℤ) := by
  have hlog : (m : ℚ) < 2 ^ (m.log2 + 1) := by exact_mod_cast Nat.lt_log2_self
  have hbound : (2 : ℚ) ^ (m.log2 + 1) * 2 ^ 1075 ≤ 10 ^ k :=
    calc (2 : ℚ) ^ (m.log2 + 1) * 2 ^ 1075 = 2 ^ (m.log2 + 1 + 1075) := (pow_add _ _ _).symm
      _ ≤ 2 ^ (3 * k) := pow_le_pow_right₀ one_le_two (by omega)
      _ = 8 ^ k := by rw [pow_mul]; norm_num
      _ ≤ 10 ^ k := pow_le_pow_left₀ (by norm_num) (by norm_num) k
  rw [div_lt_iff₀ (by positivity), zpow_neg, ← div_eq_inv_mul, lt_div_iff₀ (by positivity)]
  calc (m : ℚ) * 2 ^ (1075 : ℤ) < 2 ^ (m.log2 + 1) * 2 ^ (1075 : ℤ) :=
        mul_lt_mul_of_pos_right hlog (by positivity)
    _ ≤ 10 ^ k := hbound

/-- A decimal is rounded to the nearest number, whatever its exponent. -/
theorem rounds_ofDecimal (m : ℕ) (e : ℤ) : Rounds false (m * 10 ^ e) (ofDecimal false m e) := by
  have hsign (n : Number) : withSign false n = n := rfl
  rw [ofDecimal, hsign]
  rcases Nat.eq_zero_or_pos m with rfl | hpos
  · rw [if_pos rfl, Nat.cast_zero, zero_mul]
    exact rounds_zero le_rfl (by positivity)
  rw [if_neg hpos.ne']
  rcases le_or_gt 0 e with he | he
  · obtain ⟨k, rfl⟩ := Int.eq_ofNat_of_zero_le he
    have hup : decide ((k : ℤ) < 0) = false := decide_eq_false (by omega)
    rw [hup, Bool.false_and, if_neg Bool.false_ne_true, zpow_natCast]
    split
    · next hlarge => exact rounds_infinity (overflows_of_exponent hpos (by omega))
    change Rounds false _ (ofFloat (Float.ofScientific m false k))
    by_cases hfast : m < 2 ^ 53 ∧ k ≤ 22
    · exact rounds_fast hpos hfast.1 hfast.2 false
    · exact rounds_up hpos hfast (by omega)
  · obtain ⟨k, rfl⟩ : ∃ k : ℕ, e = -k := ⟨e.natAbs, by omega⟩
    have hdown : decide ((-k : ℤ) < 0) = true := decide_eq_true he
    rw [hdown, Bool.true_and, if_neg (by omega), zpow_neg, zpow_natCast, ← div_eq_mul_inv]
    split
    · next hsmall =>
      rw [decide_eq_true_eq] at hsmall
      exact rounds_zero (by positivity) (vanishes_of_exponent (by omega))
    · next hsmall =>
      rw [decide_eq_true_eq] at hsmall
      have habs : (-k : ℤ).natAbs = k := by omega
      rw [habs]
      change Rounds false _ (ofFloat (Float.ofScientific m true k))
      by_cases hfast : m < 2 ^ 53 ∧ k ≤ 22
      · exact rounds_fast hpos hfast.1 hfast.2 true
      · exact rounds_down hpos hfast (by omega) (by omega)

end Decimals

section Signs

variable {n : Number} {x : ℚ}

theorem significand_negate (n : Number) : n.negate.significand = n.significand := by
  rw [significand, significand, magnitude_negate]

theorem toRat_negate (n : Number) : n.negate.toRat = -n.toRat := by
  have hexponent : n.negate.exponent = n.exponent := by
    rw [exponent, exponent, magnitude_negate]
  rw [toRat, toRat, significand_negate, hexponent, isNegative_negate]
  cases n.isNegative <;> simp

theorem IsNearest.negate (h : IsNearest x n) : IsNearest (-x) n.negate := by
  have hdistance (other : Number) : |other.toRat - -x| = |other.negate.toRat - x| := by
    rw [toRat_negate, ← abs_neg]
    congr 1
    ring
  have hself : |n.negate.toRat - -x| = |n.toRat - x| := by
    rw [hdistance, toRat_negate, toRat_negate, neg_neg]
  have hfinite {other : Number} (hother : other.isFinite) : other.negate.isFinite :=
    isFinite_withSign true hother
  refine ⟨hfinite h.finite, fun other hother => ?_, fun other hother hne htie => ?_⟩
  · rw [hself, hdistance]
    exact h.nearest _ (hfinite hother)
  · rw [significand_negate]
    rw [hself, hdistance] at htie
    refine h.even _ (hfinite hother) ?_ htie
    intro heq
    rw [toRat_negate] at heq hne
    exact hne (by rw [← heq, neg_neg])

theorem Rounds.negate (h : Rounds false x n) : Rounds true x n.negate where
  sign := by rw [isNegative_negate, h.sign, Bool.not_false]
  nearest hx := by
    have hnearest := (h.nearest hx).negate
    simpa using hnearest
  overflow hx := congrArg Number.negate (h.overflow hx)

end Signs

/-- A decimal is rounded to the number that is nearest to it, and of two equally near ones to that
with an even significand; from halfway behind the greatest number on it becomes infinite. -/
theorem ofDecimal_rounds (negative : Bool) (m : ℕ) (e : ℤ) :
    Rounds negative (m * 10 ^ e) (ofDecimal negative m e) := by
  cases negative with
  | false => exact rounds_ofDecimal m e
  | true => exact (rounds_ofDecimal m e).negate

end Number

end Pagewright
