import Mathlib.Algebra.Order.Field.Power
import Mathlib.Algebra.Order.Field.Rat
import Mathlib.Tactic.FieldSimp
import Mathlib.Tactic.Linarith
import Mathlib.Tactic.Positivity
import Pagewright.Proofs.Number.Finite

/-!
Rounding to the last place of the format. A quotient or a product is known by its first digits, the
next one, and whether anything follows; this is enough to round it to the last place that the format
has for numbers of its size. A value of the format is packed as it is.
-/

namespace Pagewright

namespace Number

open Float.Model Float.Model.UnpackedFloat

section Significands

variable {z : ℚ} {r : ℕ} {extended : ExtendedMantissa}

/-- An integer nearest to a rational, the even one if there are two. -/
def RoundsTo (z : ℚ) (r : ℕ) : Prop := |r - z| ≤ 1 / 2 ∧ (|r - z| = 1 / 2 → Even r)

private theorem RoundsTo.half_le (h : RoundsTo z r) {j : ℤ} (hj : j ≠ r) : 1 / 2 ≤ |j - z| := by
  have hapart : (1 : ℚ) ≤ |(j : ℚ) - r| := by exact_mod_cast Int.one_le_abs (sub_ne_zero.mpr hj)
  have htriangle := abs_sub_le (j : ℚ) z r
  rw [abs_sub_comm z] at htriangle
  linarith [h.1]

theorem RoundsTo.le_abs (h : RoundsTo z r) (j : ℤ) : |r - z| ≤ |j - z| := by
  by_cases hj : j = r
  · rw [hj, Int.cast_natCast]
  · exact h.1.trans (h.half_le hj)

theorem RoundsTo.even_of_tie (h : RoundsTo z r) {j : ℤ} (hj : j ≠ r) (htie : |j - z| = |r - z|) :
    Even r :=
  h.2 (le_antisymm h.1 (htie ▸ h.half_le hj))

/-- What a significand with its two residual bits says of a rational: the significand is its floor,
the first bit tells whether it is half a unit above that or more, and the second one whether it is
neither the floor nor half a unit above it. -/
structure Represents (extended : ExtendedMantissa) (z : ℚ) : Prop where
  lower : extended.mantissa ≤ z
  upper : z < extended.mantissa + 1
  round : extended.roundBit ↔ extended.mantissa + 1 / 2 ≤ z
  sticky : extended.stickyBit ↔ z ≠ extended.mantissa ∧ z ≠ extended.mantissa + 1 / 2

theorem Represents.exact (m : ℕ) : Represents (.ofMantissaAndAccuracy m .exact) m where
  lower := le_rfl
  upper := lt_add_one _
  round := by simp [ExtendedMantissa.ofMantissaAndAccuracy]
  sticky := by simp [ExtendedMantissa.ofMantissaAndAccuracy]

private theorem ofMantissaAndAccuracy_fraction (m a : ℕ) {d : ℕ} (hd : 0 < d) :
    ExtendedMantissa.ofMantissaAndAccuracy m (accuracyOfFraction a d) =
      ⟨m, d ≤ 2 * a, a ≠ 0 && 2 * a ≠ d⟩ := by
  rw [accuracyOfFraction]
  by_cases ha : a = 0
  · simp [ha, hd.ne', ExtendedMantissa.ofMantissaAndAccuracy]
  rcases Nat.lt_trichotomy (2 * a) d with h | h | h
  · simp [ha, Nat.compare_eq_lt.mpr h, ExtendedMantissa.ofMantissaAndAccuracy, h, h.ne]
  · simp [ha, ExtendedMantissa.ofMantissaAndAccuracy, h]
  · simp [ha, Nat.compare_eq_gt.mpr h, ExtendedMantissa.ofMantissaAndAccuracy, h.le, h.ne']

/-- The remainder of a division tells where the quotient is. -/
theorem Represents.fraction (a : ℕ) {d : ℕ} (hd : 0 < d) :
    Represents (.ofMantissaAndAccuracy (a / d) (accuracyOfFraction (a % d) d)) (a / d : ℚ) := by
  have hpos : (0 : ℚ) < d := by exact_mod_cast hd
  have hdivision : (d : ℚ) * (a / d : ℕ) + (a % d : ℕ) = a := by exact_mod_cast Nat.div_add_mod a d
  have hquotient : (a / d : ℚ) = (a / d : ℕ) + (a % d : ℕ) / d := by
    rw [← hdivision]
    field_simp
  have hfraction : ((a % d : ℕ) / d : ℚ) < 1 := by
    rw [div_lt_one hpos]
    exact_mod_cast Nat.mod_lt a hd
  have hhalf : (1 / 2 : ℚ) ≤ (a % d : ℕ) / d ↔ d ≤ 2 * (a % d) := by
    rw [div_le_div_iff₀ two_pos hpos, one_mul, mul_comm]
    exact_mod_cast Iff.rfl
  have htie : ((a % d : ℕ) / d : ℚ) = 1 / 2 ↔ 2 * (a % d) = d := by
    rw [div_eq_div_iff hpos.ne' two_ne_zero, one_mul, mul_comm]
    exact_mod_cast Iff.rfl
  have hzero : ((a % d : ℕ) / d : ℚ) = 0 ↔ a % d = 0 := by
    rw [div_eq_zero_iff, or_iff_left hpos.ne', Nat.cast_eq_zero]
  rw [ofMantissaAndAccuracy_fraction _ _ hd, hquotient]
  constructor
  case lower => exact le_add_of_nonneg_right (by positivity)
  case upper => exact add_lt_add_right hfraction _
  case round => simp only [decide_eq_true_eq, add_le_add_iff_left, hhalf]
  case sticky =>
    simp only [Bool.and_eq_true, decide_eq_true_eq, ne_eq, add_eq_left, add_right_inj, hzero, htie]

theorem Represents.half (h : Represents extended z) :
    Represents extended.shiftRightOne (z / 2) := by
  obtain ⟨m, round, sticky⟩ := extended
  obtain ⟨hlower, hupper, hround, hsticky⟩ := h
  dsimp only at hlower hupper hround hsticky
  rcases Nat.even_or_odd' m with ⟨q, rfl | rfl⟩
  · have hbit : 2 * q / 2 = q ∧ (2 * q % 2 != 0) = false := by simp
    rw [ExtendedMantissa.shiftRightOne, hbit.1, hbit.2]
    push_cast at hlower hupper hround hsticky
    constructor
    case lower => linarith
    case upper => linarith
    case round =>
      refine iff_of_false Bool.false_ne_true ?_
      linarith
    case sticky => grind
  · have hbit : (2 * q + 1) / 2 = q ∧ ((2 * q + 1) % 2 != 0) = true := by
      constructor
      · omega
      · simp
    rw [ExtendedMantissa.shiftRightOne, hbit.1, hbit.2]
    push_cast at hlower hupper hround hsticky
    constructor
    case lower => linarith
    case upper => linarith
    case round =>
      refine iff_of_true rfl ?_
      linarith
    case sticky => grind

theorem Represents.shift (h : Represents extended z) (k : ℕ) :
    Represents (extended >>> k) (z / 2 ^ k) := by
  induction k with
  | zero => rwa [pow_zero, div_one]
  | succ k ih =>
    rw [pow_succ, ← div_div]
    exact ih.half

theorem Represents.roundsTo (h : Represents extended z) : RoundsTo z extended.roundedMantissa := by
  obtain ⟨m, round, sticky⟩ := extended
  obtain ⟨hlower, hupper, hround, hsticky⟩ := h
  dsimp only at hlower hupper hround hsticky
  have strictly {r : ℕ} (h : |(r : ℚ) - z| < 1 / 2) : RoundsTo z r :=
    ⟨h.le, fun htie => absurd htie h.ne⟩
  cases round with
  | false =>
    have hbelow : z < m + 1 / 2 := not_le.mp fun h => Bool.false_ne_true (hround.mpr h)
    refine strictly (r := ExtendedMantissa.roundedMantissa ⟨m, false, sticky⟩) ?_
    have hr : ExtendedMantissa.roundedMantissa ⟨m, false, sticky⟩ = m := by cases sticky <;> rfl
    rw [hr, abs_lt]
    constructor <;> linarith
  | true =>
    have habove : m + 1 / 2 ≤ z := hround.mp rfl
    cases sticky with
    | false =>
      have hz : z = m + 1 / 2 := by grind
      have hr : ExtendedMantissa.roundedMantissa ⟨m, true, false⟩ = m + m % 2 := rfl
      rw [RoundsTo, hr, hz]
      rcases Nat.mod_two_eq_zero_or_one m with hm | hm
      · simp [hm, Nat.even_iff]
      · refine ⟨?_, fun _ => ?_⟩
        · rw [hm]
          norm_num
        · rw [Nat.even_iff]
          omega
    | true =>
      have hne : z ≠ m + 1 / 2 := (hsticky.mp rfl).2
      have hstrict : m + 1 / 2 < z := lt_of_le_of_ne habove hne.symm
      refine strictly (r := m + 1) ?_
      push_cast
      rw [abs_lt]
      constructor <;> linarith

end Significands

section Places

variable {x : ℚ} {place : ℤ} {r : ℕ}

/-- The last binary place that the format has for numbers of the size of a rational. -/
structure HasPlace (x : ℚ) (place : ℤ) : Prop where
  least : -1074 ≤ place
  upper : x < 2 ^ 53 * 2 ^ place
  lower : place = -1074 ∨ 2 ^ 52 * 2 ^ place ≤ x

/-- A rounded significand at a place, as a value of the format. -/
def settle (r : ℕ) (place : ℤ) : UnpackedFloat :=
  if h : r = 0 then .zero .positive
  else if r = 2 ^ 53 then .finite .positive (2 ^ 52) (place + 1) (by decide)
  else .finite .positive r place (Nat.pos_of_ne_zero h)

theorem HasPlace.of_bounds {m : ℕ} {e : ℤ} (hlower : m * 2 ^ e ≤ x) (hupper : x < (m + 1) * 2 ^ e)
    (hplace : place = max (m.log2 + e - 52) (-1074)) (he : e ≤ place) : HasPlace x place where
  least := by omega
  upper := by
    have hlog : (m + 1 : ℚ) ≤ 2 ^ (m.log2 + 1) := by exact_mod_cast Nat.lt_log2_self
    calc x < (m + 1) * 2 ^ e := hupper
      _ ≤ 2 ^ (m.log2 + 1) * 2 ^ e := mul_le_mul_of_nonneg_right hlog (by positivity)
      _ = 2 ^ ((m.log2 + 1 : ℕ) + e) := by rw [zpow_add₀ two_ne_zero, zpow_natCast]
      _ ≤ 2 ^ ((53 : ℕ) + place) := zpow_le_zpow_right₀ one_le_two (by omega)
      _ = 2 ^ 53 * 2 ^ place := by rw [zpow_add₀ two_ne_zero, zpow_natCast]
  lower := by
    refine or_iff_not_imp_left.mpr fun hleast => ?_
    have hne : m ≠ 0 := by
      rintro rfl
      rw [Nat.log2_zero] at hplace
      omega
    have hlog : (2 ^ m.log2 : ℚ) ≤ m := by exact_mod_cast Nat.log2_self_le hne
    have hexponent : ((52 : ℕ) + place : ℤ) = (m.log2 : ℕ) + e := by omega
    calc (2 ^ 52 * 2 ^ place : ℚ) = 2 ^ ((52 : ℕ) + place) := by
          rw [zpow_add₀ two_ne_zero, zpow_natCast]
      _ = 2 ^ m.log2 * 2 ^ e := by rw [hexponent, zpow_add₀ two_ne_zero, zpow_natCast]
      _ ≤ m * 2 ^ e := mul_le_mul_of_nonneg_right hlog (by positivity)
      _ ≤ x := hlower

theorem HasPlace.significand_le (h : HasPlace x place) (hr : RoundsTo (x / 2 ^ place) r) :
    r ≤ 2 ^ 53 := by
  have hupper : x / 2 ^ place < 2 ^ 53 := (div_lt_iff₀ (by positivity)).mpr h.upper
  have hlt : (r : ℚ) < (2 ^ 53 + 1 : ℕ) := by
    push_cast
    linarith [(abs_le.mp hr.1).2]
  exact Nat.lt_succ_iff.mp (by exact_mod_cast hlt)

/-- A significand that has become too long is a power of two. -/
private theorem settle_eq {k : ℕ} (hr : r ≤ 2 ^ 53) (hplace : -1074 ≤ place)
    (hk : k = (max (r.log2 + 1 + place - 53) (-1074) - place).toNat) :
    (if h : r / 2 ^ k = 0 then .zero .positive
      else .finite .positive (r / 2 ^ k) (place + k) (Nat.pos_of_ne_zero h)) = settle r place := by
  rw [settle]
  by_cases hlong : r = 2 ^ 53
  · have hone : k = 1 := by
      rw [hk, hlong, Nat.log2_two_pow]
      omega
    clear hk
    subst hlong hone
    rfl
  · have hlog : r.log2 ≤ 52 := log2_le_of_lt (by omega)
    have hnone : k = 0 := by omega
    clear hk
    subst hnone
    by_cases hzero : r = 0
    · simp [hzero]
    · rw [dif_neg (by simpa using hzero), dif_neg hzero, if_neg hlong]
      exact finite_congr (by simp) (by simp)

/-- A significand that is not too short is rounded to the last place. -/
theorem exists_settle {m : ℕ} {e : ℤ} {accuracy : Accuracy}
    (hx : Represents (.ofMantissaAndAccuracy m accuracy) (x / 2 ^ e))
    (he : e ≤ max (m.log2 + e - 52) (-1074)) :
    ∃ place r, HasPlace x place ∧ RoundsTo (x / 2 ^ place) r ∧
      roundWithAccuracy Format.binary64 .positive m e accuracy = settle r place := by
  obtain ⟨k, r, k', hround, hr, hk, hk', -⟩ := exists_round .positive m e accuracy
  have hpow : (0 : ℚ) < 2 ^ e := by positivity
  have hshift : x / 2 ^ e / 2 ^ k = x / 2 ^ (e + k) := by
    rw [div_div, ← zpow_natCast, ← zpow_add₀ two_ne_zero]
  have hrounds : RoundsTo (x / 2 ^ (e + k)) r := by
    rw [hr, ← hshift]
    exact (hx.shift k).roundsTo
  have hlower := hx.lower
  have hupper := hx.upper
  rw [mantissa_ofMantissaAndAccuracy] at hlower hupper
  have hplace : HasPlace x (e + k) :=
    .of_bounds ((le_div_iff₀ hpow).mp hlower) ((div_lt_iff₀ hpow).mp hupper) (by omega) (by omega)
  refine ⟨e + k, r, hplace, hrounds, ?_⟩
  rw [hround]
  exact settle_eq (hplace.significand_le hrounds) hplace.least hk'

end Places

section Packing

variable {m : ℕ} {e : ℤ} (hm : 0 < m)

/-- The pattern of a positive value of the format: a field for the exponent, and the significand
without its leading bit if it has the full precision. -/
private theorem bits_ofUnpacked (hhigh : e < 972) (hlt : m < 2 ^ 53)
    (hplace : e = -1074 ∨ -1074 ≤ e ∧ leadingWeight ≤ m) : ∃ field rest : ℕ,
      (ofUnpacked (.finite .positive m e hm)).bits.toNat = field * leadingWeight + rest ∧
      field < 2047 ∧ rest < leadingWeight ∧
      (field = 0 ∧ rest = m ∧ e = -1074 ∨
        0 < field ∧ rest + leadingWeight = m ∧ e = (field : ℤ) - 1075) := by
  have hbits : (ofUnpacked (.finite .positive m e hm)).bits.toNat =
      (UnpackedFloat.pack Format.binary64 (.finite .positive m e hm)).toNat := rfl
  have hsign : Sign.positive.toBitVec.toNat = 0 := rfl
  have hlog : m.log2 = 52 ↔ leadingWeight ≤ m := by
    rw [Nat.log2_eq_iff hm.ne', and_iff_left hlt]
    rfl
  rw [hbits, pack_finite (by omega)]
  by_cases hfull : leadingWeight ≤ m
  · rw [if_pos (hlog.mpr hfull), toNat_packComponents, hsign, Nat.zero_mul, Nat.zero_add]
    refine ⟨_, _, rfl, ?_, BitVec.isLt _, .inr ?_⟩
    · rw [BitVec.toNat_ofNat]
      omega
    · rw [BitVec.toNat_ofNat, BitVec.toNat_ofNat]
      simp only [leadingWeight] at hfull ⊢
      omega
  · rw [if_neg fun h => hfull (hlog.mp h), toNat_packComponents, hsign, Nat.zero_mul, Nat.zero_add]
    refine ⟨_, _, rfl, by decide, BitVec.isLt _, .inl ⟨rfl, ?_, by omega⟩⟩
    rw [BitVec.toNat_ofNat]
    simp only [leadingWeight] at hfull
    omega

/-- A positive value of the format is packed as it is. -/
theorem ofUnpacked_finite (hhigh : e < 972) (hlt : m < 2 ^ 53)
    (hplace : e = -1074 ∨ -1074 ≤ e ∧ leadingWeight ≤ m) :
    let n := ofUnpacked (.finite .positive m e hm)
    n.isNegative = false ∧ n.isFinite ∧ n.significand = m ∧ n.exponent = e := by
  intro n
  obtain ⟨field, rest, hbits, hfield, hrest, hparts⟩ := bits_ofUnpacked hm hhigh hlt hplace
  have hbits : n.bits.toNat = field * leadingWeight + rest := hbits
  have hbound : field * leadingWeight + rest < infinityMagnitude := by
    simp only [infinityMagnitude, leadingWeight] at hrest ⊢
    omega
  have hsign : field * leadingWeight + rest < signWeight := hbound.trans (by decide)
  have hmagnitude : n.magnitude = field * leadingWeight + rest := by
    rw [magnitude, hbits, Nat.mod_eq_of_lt hsign]
  have hdiv : n.magnitude / leadingWeight = field := by
    rw [hmagnitude, Nat.mul_comm, Nat.mul_add_div (by decide), Nat.div_eq_of_lt hrest, Nat.add_zero]
  have hmod : n.magnitude % leadingWeight = rest := by
    rw [hmagnitude, Nat.mul_add_mod_self_right, Nat.mod_eq_of_lt hrest]
  refine ⟨?_, ?_, ?_, ?_⟩
  · rw [isNegative, hbits, decide_eq_false_iff_not, not_le]
    exact hsign
  · rw [isFinite, hmagnitude, decide_eq_true_eq]
    exact hbound
  · rw [significand, hdiv, hmod, hmagnitude]
    rcases hparts with ⟨rfl, rfl, -⟩ | ⟨hpos, rfl, -⟩
    · simp
    · rw [if_neg hpos.ne']
  · rw [exponent, hdiv]
    rcases hparts with ⟨rfl, -, rfl⟩ | ⟨hpos, -, rfl⟩
    · rfl
    · rw [if_neg hpos.ne']

/-- A value that the format has no exponent for is packed as infinity. -/
theorem ofUnpacked_large (hhigh : 972 ≤ e) : ofUnpacked (.finite .positive m e hm) = infinity := by
  have hlarge : 2 ^ Format.binary64.exponentBits ≤
      (e + Format.binary64.exponentBias + (52 : ℕ)).toNat + 1 := by
    simp [Format.exponentBias]
    omega
  have hpack : UnpackedFloat.pack Format.binary64 (.finite .positive m e hm) =
      packedInfinity Format.binary64 .positive := if_pos hlarge
  have hbits : ofUnpacked (.finite .positive m e hm) =
      ⟨.ofBitVec (UnpackedFloat.pack Format.binary64 (.finite .positive m e hm))⟩ := rfl
  rw [hbits, hpack]
  rfl

end Packing

end Number

end Pagewright
