import Mathlib.Data.Nat.Log
import Mathlib.Tactic.Ring
import Pagewright.Number.Basic

/-!
Finite numbers. Arithmetic is that of the logical model of floating point, in which a number is
unpacked, computed with, rounded and packed again. What is packed is finite as long as its
exponent is small enough, so bounds on exponents are carried through rounding.
-/

namespace Pagewright

namespace Number

open Float.Model Float.Model.UnpackedFloat

section Packing

theorem toNat_packComponents (sign : Sign) (exponent : BitVec 11) (mantissa : BitVec 52) :
    (packComponents Format.binary64 sign exponent mantissa).toNat =
      sign.toBitVec.toNat * signWeight + (exponent.toNat * leadingWeight + mantissa.toNat) := by
  have hexp := exponent.isLt
  have hmant := mantissa.isLt
  unfold packComponents
  rw [BitVec.toNat_append, BitVec.toNat_append, ← Nat.shiftLeft_add_eq_or_of_lt hmant,
    ← Nat.shiftLeft_add_eq_or_of_lt hexp, Nat.shiftLeft_eq, Nat.shiftLeft_eq]
  simp only [signWeight, leadingWeight]
  omega

private theorem toNat_packComponents_mod (sign : Sign) (exponent : BitVec 11)
    (mantissa : BitVec 52) :
    (packComponents Format.binary64 sign exponent mantissa).toNat % signWeight =
      exponent.toNat * leadingWeight + mantissa.toNat := by
  have hexp := exponent.isLt
  have hmant := mantissa.isLt
  rw [toNat_packComponents, Nat.mul_add_mod_self_right, Nat.mod_eq_of_lt]
  simp only [signWeight, leadingWeight]
  omega

theorem pack_finite {s : Sign} {m : Nat} {e : Int} {hm : 0 < m} (h : e + 1075 < 2047) :
    UnpackedFloat.pack Format.binary64 (.finite s m e hm) =
      if m.log2 = 52 then
        packComponents Format.binary64 s (BitVec.ofNat 11 (e + 1075).toNat) (BitVec.ofNat 52 m)
      else packComponents Format.binary64 s 0 (BitVec.ofNat 52 m) := by
  have biased : (e + Format.binary64.exponentBias + (52 : Nat)).toNat = (e + 1075).toNat := by
    simp [Format.exponentBias]
    omega
  have precision : m.log2 + 1 = Format.binary64.mantissaBits ↔ m.log2 = 52 := Nat.succ_inj
  have small : ¬ 2 ^ Format.binary64.exponentBits ≤ (e + 1075).toNat + 1 := by
    simp
    omega
  calc UnpackedFloat.pack Format.binary64 (.finite s m e hm)
    _ = let biased := (e + Format.binary64.exponentBias + (52 : Nat)).toNat
        if 2 ^ Format.binary64.exponentBits ≤ biased + 1 then packedInfinity Format.binary64 s
        else if m.log2 + 1 = Format.binary64.mantissaBits then
          packComponents Format.binary64 s (BitVec.ofNat 11 biased) (BitVec.ofNat 52 m)
        else packComponents Format.binary64 s 0 (BitVec.ofNat 52 m) := rfl
    _ = _ := by
      simp only [biased, precision]
      rw [if_neg small]

/-- An unpacked value as a number. -/
def ofUnpacked (u : UnpackedFloat) : Number := ofFloat (.ofModel (.pack u))

theorem magnitude_ofUnpacked (u : UnpackedFloat) :
    (ofUnpacked u).magnitude = (UnpackedFloat.pack Format.binary64 u).toNat % signWeight := rfl

/-- A value is zero, or finite with an exponent that is stored as a number up to a bound. -/
private inductive Fits (bound : Nat) : UnpackedFloat → Prop where
  | zero (s : Sign) : Fits bound (.zero s)
  | finite {s : Sign} {m : Nat} {e : Int} {hm : 0 < m} : e + 1075 ≤ bound →
      Fits bound (.finite s m e hm)

theorem finite_congr {s : Sign} {m m' : Nat} {e e' : Int} {hm : 0 < m} {hm' : 0 < m'}
    (significand : m = m') (exponent : e = e') :
    UnpackedFloat.finite s m e hm = .finite s m' e' hm' := by
  subst significand exponent
  rfl

private theorem magnitude_lt_of_fits {u : UnpackedFloat} {bound : Nat} (h : Fits bound u)
    (hbound : bound < 2047) :
    (ofUnpacked u).magnitude < (bound + 1) * leadingWeight := by
  have within (sign : Sign) (exponent : BitVec 11) (mantissa : BitVec 52)
      (hexp : exponent.toNat ≤ bound) :
      (packComponents Format.binary64 sign exponent mantissa).toNat % signWeight <
        (bound + 1) * leadingWeight := by
    have hmant := mantissa.isLt
    rw [toNat_packComponents_mod]
    simp only [leadingWeight]
    omega
  rw [magnitude_ofUnpacked]
  cases h with
  | zero s => exact within s 0 0 (Nat.zero_le _)
  | @finite s m e hm hexp =>
    rw [pack_finite (by omega)]
    split
    · refine within s _ _ ?_
      rw [BitVec.toNat_ofNat]
      exact (Nat.mod_le _ _).trans (by omega)
    · exact within s _ _ (Nat.zero_le _)

private theorem isFinite_of_fits {u : UnpackedFloat} (h : Fits 2046 u) :
    (ofUnpacked u).isFinite :=
  decide_eq_true (magnitude_lt_of_fits h (by decide))

/-- A value is zero, or finite with a significand of the format and a bounded exponent. -/
private def Within (bound : Nat) (u : UnpackedFloat) : Prop :=
  (∃ s, u = .zero s) ∨ ∃ s m e h, u = .finite s m e h ∧ m < 2 * leadingWeight ∧ e + 1075 ≤ bound

/-- The sign of a number, as a part of what it is unpacked into. -/
def sign (n : Number) : Sign := if n.isNegative then .negative else .positive

/-- A finite number is unpacked into its sign, significand and exponent. -/
theorem unpack_finite {n : Number} (h : n.isFinite) :
    UnpackedFloat.unpack Format.binary64 n.bits.toBitVec = .zero n.sign ∧ n.significand = 0 ∨
      ∃ hm, UnpackedFloat.unpack Format.binary64 n.bits.toBitVec =
        .finite n.sign n.significand n.exponent hm := by
  have finite : n.magnitude < infinityMagnitude := of_decide_eq_true h
  have pattern : n.magnitude = n.bits.toNat % signWeight := rfl
  have exponent : (@unpackExponent Format.binary64 n.bits.toBitVec).toNat =
      n.magnitude / leadingWeight := by
    simp [unpackExponent, Nat.shiftRight_eq_div_pow]
    simp only [pattern, signWeight, leadingWeight]
    omega
  have mantissa : (@unpackMantissa Format.binary64 n.bits.toBitVec).toNat =
      n.magnitude % leadingWeight := by
    simp [unpackMantissa, pattern, signWeight, leadingWeight]
  have bias : (Format.binary64.exponentBias : Int) + Format.binary64.mantissaBitsWithoutImplicit =
      1075 := by decide
  have notmax : @unpackExponent Format.binary64 n.bits.toBitVec ≠ -1#_ := by
    intro hmax
    rw [hmax] at exponent
    simp [leadingWeight, infinityMagnitude] at exponent finite
    omega
  have sign : Sign.ofBitVec (@unpackSign Format.binary64 n.bits.toBitVec) = n.sign := by
    have top : (@unpackSign Format.binary64 n.bits.toBitVec).toNat = n.bits.toNat / signWeight := by
      have := n.bits.toNat_lt
      change (n.bits.toBitVec.extractLsb 63 63).toNat = _
      simp [Nat.shiftRight_eq_div_pow, signWeight]
      omega
    have positive : @unpackSign Format.binary64 n.bits.toBitVec = 0#1 ↔ n.isNegative = false := by
      rw [← BitVec.toNat_inj, top, isNegative, decide_eq_false_iff_not, BitVec.toNat_zero,
        Nat.div_eq_zero_iff, Nat.not_le]
      simp [signWeight]
    rw [Sign.ofBitVec, Number.sign]
    cases hsign : n.isNegative <;> simp [positive, hsign]
  unfold UnpackedFloat.unpack
  dsimp only
  rw [sign, bias, Number.significand, Number.exponent, ← exponent, ← mantissa, if_neg notmax]
  by_cases hzero : @unpackExponent Format.binary64 n.bits.toBitVec = 0#_
  · have magnitude : (@unpackMantissa Format.binary64 n.bits.toBitVec).toNat =
        n.magnitude := by
      rw [hzero] at exponent
      simp [leadingWeight] at exponent mantissa
      omega
    rw [if_pos hzero, hzero, BitVec.toNat_zero, if_pos rfl, if_pos rfl]
    by_cases hm : @unpackMantissa Format.binary64 n.bits.toBitVec = 0#_
    · rw [hm] at magnitude
      rw [dif_pos hm]
      exact .inl ⟨rfl, magnitude.symm⟩
    · rw [dif_neg hm]
      refine .inr ⟨?_, finite_congr magnitude rfl⟩
      rw [← magnitude, BitVec.toNat_pos, BitVec.pos_iff_ne_zero]
      exact hm
  · have nonzero : (@unpackExponent Format.binary64 n.bits.toBitVec).toNat ≠ 0 := fun h =>
      hzero (BitVec.eq_of_toNat_eq h)
    have significand : (1#1 ++ @unpackMantissa Format.binary64 n.bits.toBitVec).toNat =
        (@unpackMantissa Format.binary64 n.bits.toBitVec).toNat + leadingWeight := by
      rw [BitVec.toNat_append, ← Nat.shiftLeft_add_eq_or_of_lt (BitVec.isLt _)]
      exact Nat.add_comm _ _
    rw [if_neg hzero, if_neg nonzero, if_neg nonzero]
    exact .inr ⟨Nat.add_pos_right _ (by decide), finite_congr significand rfl⟩

/-- A finite number is unpacked into a significand of the format and a bounded exponent. -/
private theorem within_unpack {n : Number} {bound : Nat} (hpos : 1 ≤ bound)
    (hbound : bound < 2047)
    (h : n.magnitude < (bound + 1) * leadingWeight) :
    Within bound (UnpackedFloat.unpack Format.binary64 n.bits.toBitVec) := by
  have hfinite : n.isFinite :=
    decide_eq_true (h.trans_le (Nat.mul_le_mul_right _ hbound))
  obtain ⟨hzero, _⟩ | ⟨hm, hunpack⟩ := unpack_finite hfinite
  · exact .inl ⟨_, hzero⟩
  · refine .inr ⟨_, _, _, hm, hunpack, ?_, ?_⟩
    · rw [significand]
      split
      · next hfield =>
        simp only [leadingWeight] at hfield ⊢
        omega
      · simp only [leadingWeight]
        omega
    · have field : n.magnitude / leadingWeight ≤ bound :=
        Nat.lt_succ_iff.mp ((Nat.div_lt_iff_lt_mul (by decide)).mpr h)
      rw [exponent]
      split <;> omega

private theorem Within.fits {u : UnpackedFloat} {bound : Nat} (h : Within bound u) :
    Fits bound u := by
  rcases h with ⟨s, rfl⟩ | ⟨s, m, e, hm, rfl, _, hexp⟩
  · exact .zero s
  · exact .finite hexp

/-- A number of bounded magnitude is an operand within the bound. -/
private theorem within_operand {n : Number} {bound : Nat} (hpos : 1 ≤ bound)
    (hbound : bound < 2047) (h : n.magnitude < (bound + 1) * leadingWeight) :
    Within bound n.toFloat.toModel.unpack :=
  within_unpack hpos hbound (magnitude_lt_of_fits (within_unpack hpos hbound h).fits hbound)

end Packing

section Rounding

theorem targetExponent_eq (total : Int) :
    Format.binary64.targetExponent total = max (total - 53) (-1074) := rfl

private theorem mantissa_shift (extended : ExtendedMantissa) (k : Nat) :
    (extended >>> k).mantissa = extended.mantissa / 2 ^ k := by
  induction k with
  | zero => exact (Nat.div_one _).symm
  | succ k ih =>
    change (extended >>> k).mantissa / 2 = _
    rw [ih, Nat.div_div_eq_div_mul, Nat.pow_succ]

theorem mantissa_ofMantissaAndAccuracy (m : Nat) (accuracy : Accuracy) :
    (ExtendedMantissa.ofMantissaAndAccuracy m accuracy).mantissa = m := by
  fun_cases ExtendedMantissa.ofMantissaAndAccuracy m accuracy <;> rfl

private theorem roundedMantissa_bounds (extended : ExtendedMantissa) :
    extended.mantissa ≤ extended.roundedMantissa ∧
      extended.roundedMantissa ≤ extended.mantissa + 1 := by
  unfold ExtendedMantissa.roundedMantissa
  fun_cases Accuracy.roundToNearestEven extended.mantissa extended.accuracy <;> omega

private theorem log2_le_log2 {a b : Nat} (h : a ≤ b) : a.log2 ≤ b.log2 := by
  rw [Nat.log2_eq_log_two, Nat.log2_eq_log_two]
  exact Nat.log_mono_right h

theorem log2_le_of_lt {n k : Nat} (h : n < 2 ^ (k + 1)) : n.log2 ≤ k := by
  rcases Nat.eq_zero_or_pos n with rfl | hpos
  · simp
  · exact Nat.lt_succ_iff.mp ((Nat.log2_lt hpos.ne').mpr h)

theorem log2_shiftLeft {n : Nat} (hn : n ≠ 0) (k : Nat) :
    (n <<< k).log2 = n.log2 + k := by
  induction k with
  | zero => rfl
  | succ k ih =>
    rw [Nat.shiftLeft_succ, Nat.log2_two_mul (by simpa [Nat.shiftLeft_eq] using hn), ih,
      Nat.add_assoc]

private theorem log2_add_one_le (n : Nat) : (n + 1).log2 ≤ n.log2 + 1 := by
  rcases Nat.eq_zero_or_pos n with rfl | hpos
  · decide
  · exact (log2_le_log2 (by omega)).trans (Nat.log2_two_mul hpos.ne').le

private theorem log2_div_pow (m k : Nat) : (m / 2 ^ k).log2 = m.log2 - k := by
  induction k with
  | zero => simp
  | succ k ih =>
    rw [Nat.pow_succ, ← Nat.div_div_eq_div_mul, Nat.log2_eq_log_two, Nat.log_div_base,
      ← Nat.log2_eq_log_two, ih, Nat.sub_sub]

/-- What remains of a significand after a shift, and its rounding up by at most one. -/
private theorem log2_roundedMantissa (m k : Nat) (accuracy : Accuracy) :
    let rounded := (ExtendedMantissa.ofMantissaAndAccuracy m accuracy >>> k).roundedMantissa
    m.log2 - k ≤ rounded.log2 ∧ rounded.log2 ≤ m.log2 - k + 1 := by
  have bounds := roundedMantissa_bounds (ExtendedMantissa.ofMantissaAndAccuracy m accuracy >>> k)
  rw [mantissa_shift, mantissa_ofMantissaAndAccuracy] at bounds
  rw [← log2_div_pow]
  exact ⟨log2_le_log2 bounds.1, (log2_le_log2 bounds.2).trans (log2_add_one_le _)⟩

/-- Rounding shifts the significand to the precision of the format, and once more when it became
longer by being rounded up. -/
theorem exists_round (s : Sign) (m : Nat) (e : Int) (accuracy : Accuracy) :
    ∃ k r k' : Nat, roundWithAccuracy Format.binary64 s m e accuracy =
        (if h : r / 2 ^ k' = 0 then .zero s
          else .finite s (r / 2 ^ k') (e + k + k') (Nat.pos_of_ne_zero h)) ∧
      r = (ExtendedMantissa.ofMantissaAndAccuracy m accuracy >>> k).roundedMantissa ∧
      k = (max (m.log2 + 1 + e - 53) (-1074) - e).toNat ∧
      k' = (max (r.log2 + 1 + (e + k) - 53) (-1074) - (e + k)).toNat ∧
      m.log2 - k ≤ r.log2 ∧ r.log2 ≤ m.log2 - k + 1 := by
  refine ⟨_, _, _, ?_, rfl, rfl, rfl, log2_roundedMantissa m _ accuracy⟩
  unfold roundWithAccuracy shiftToTargetExponent shiftToExponent
  dsimp only
  rw [mantissa_shift, mantissa_ofMantissaAndAccuracy]
  rfl

private theorem fits_round {bound m : Nat} {e : Int} (hpos : 1 ≤ bound) (hexp : e + 1075 ≤ bound)
    (htotal : totalExponent m e + 1023 ≤ bound) (s : Sign) (accuracy : Accuracy) :
    Fits bound (roundWithAccuracy Format.binary64 s m e accuracy) := by
  obtain ⟨k, r, k', hround, -, hk, hk', hlog⟩ := exists_round s m e accuracy
  rw [totalExponent] at htotal
  rw [hround]
  by_cases hzero : r / 2 ^ k' = 0
  · rw [dif_pos hzero]
    exact .zero s
  · rw [dif_neg hzero]
    exact .finite (by omega)

/-- A value is normal, with an exponent that is stored as a number from a bound on. -/
private def NormalFrom (low : Nat) (u : UnpackedFloat) : Prop :=
  ∃ s m e h, u = .finite s m e h ∧ m.log2 = 52 ∧ low ≤ e + 1075

private theorem le_magnitude_of_normal {u : UnpackedFloat} {low bound : Nat}
    (h : NormalFrom low u) (hfits : Fits bound u) (hbound : bound < 2047) :
    low * leadingWeight ≤ (ofUnpacked u).magnitude := by
  obtain ⟨s, m, e, hm, rfl, hlog, hlow⟩ := h
  have hexp : e + 1075 ≤ bound := by
    cases hfits
    assumption
  rw [magnitude_ofUnpacked, pack_finite (by omega), if_pos hlog, toNat_packComponents_mod,
    BitVec.toNat_ofNat, Nat.mod_eq_of_lt (by simp; omega)]
  exact Nat.le_add_right_of_le (Nat.mul_le_mul_right _ (by omega))

private theorem normal_unpack {n : Number} {low : Nat} (hpos : 1 ≤ low)
    (hlow : low * leadingWeight ≤ n.magnitude)
    (hfinite : n.isFinite) :
    NormalFrom low (UnpackedFloat.unpack Format.binary64 n.bits.toBitVec) := by
  have field : low ≤ n.magnitude / leadingWeight :=
    (Nat.le_div_iff_mul_le (by decide)).mpr hlow
  have normal : n.magnitude / leadingWeight ≠ 0 := by omega
  have digits : n.significand.log2 = 52 := by
    rw [significand, if_neg normal, Nat.log2_eq_iff (by simp [leadingWeight])]
    simp only [leadingWeight]
    omega
  obtain ⟨_, hzero⟩ | ⟨hm, hunpack⟩ := unpack_finite hfinite
  · rw [hzero] at digits
    cases digits
  · refine ⟨_, _, _, hm, hunpack, digits, ?_⟩
    rw [exponent, if_neg normal]
    omega

private theorem normal_operand {n : Number} {low : Nat} (hpos : 1 ≤ low)
    (hlow : low * leadingWeight ≤ n.magnitude) (hfinite : n.isFinite) :
    NormalFrom low n.toFloat.toModel.unpack := by
  have hn : n.magnitude < (2046 + 1) * leadingWeight := of_decide_eq_true hfinite
  have fits := (within_unpack (by decide) (by decide) hn).fits
  have low := le_magnitude_of_normal (normal_unpack hpos hlow hfinite) fits (by decide)
  exact normal_unpack hpos low (isFinite_of_fits fits)

private theorem round_normal {m : Nat} {e : Int} (hm : 52 ≤ m.log2) (he : -1022 ≤ m.log2 + e)
    (s : Sign) (accuracy : Accuracy) {low : Nat} (hlow : low ≤ m.log2 + e + 1023) :
    NormalFrom low (roundWithAccuracy Format.binary64 s m e accuracy) := by
  obtain ⟨k, r, k', hround, -, hk, hk', hlog⟩ := exists_round s m e accuracy
  have final : (r / 2 ^ k').log2 = 52 := by
    rw [log2_div_pow]
    omega
  have nonzero : r / 2 ^ k' ≠ 0 := by
    intro hzero
    rw [hzero] at final
    cases final
  rw [hround, dif_neg nonzero]
  exact ⟨s, _, _, _, rfl, final, by omega⟩

private theorem fits_div {u v : UnpackedFloat} (hu : Within 2046 u)
    (hv : NormalFrom 1026 v) : Fits 2046 (UnpackedFloat.div Format.binary64 u v) := by
  obtain ⟨s₂, m₂, e₂, hm₂, rfl, hlog₂, he₂⟩ := hv
  rcases hu with ⟨s, rfl⟩ | ⟨s₁, m₁, e₁, hm₁, rfl, hm, he⟩
  · exact .zero _
  have hlog₁ : m₁.log2 ≤ 52 := log2_le_of_lt hm
  let quotient := divCore Format.binary64 m₁ e₁ m₂ e₂
  change Fits 2046
    (roundWithAccuracy Format.binary64 (s₁ / s₂) quotient.1 quotient.2.1 quotient.2.2)
  simp only [quotient, divCore, targetExponent_eq, totalExponent, hlog₂]
  generalize htarget : min (e₁ - e₂)
    (max ((m₁.log2 : Int) + 1 + e₁ - ((52 : Nat) + 1 + e₂) - 53) (-1074)) = target
  generalize hk : (e₁ - e₂ - target).toNat = k
  have hlog : (m₁ <<< k / m₂).log2 ≤ k := by
    refine log2_le_of_lt (Nat.div_lt_of_lt_mul ?_)
    calc m₁ <<< k = m₁ * 2 ^ k := Nat.shiftLeft_eq m₁ k
      _ < 2 ^ 53 * 2 ^ k := Nat.mul_lt_mul_of_pos_right hm (Nat.two_pow_pos k)
      _ = 2 ^ 52 * 2 ^ (k + 1) := by ring
      _ ≤ m₂ * 2 ^ (k + 1) := Nat.mul_le_mul_right _ (hlog₂ ▸ Nat.log2_self_le hm₂.ne')
  refine fits_round (by decide) ?_ ?_ _ _
  · omega
  · rw [totalExponent]
    omega

end Rounding

section Powers

theorem ofScientific_eq {m : Nat} (hm : m ≠ 0) {e : Nat} (he : e ≤ 2048) :
    UnpackedFloat.ofScientific Format.binary64 m e =
      roundWithAccuracy Format.binary64 .positive ((m * 10 ^ e) <<< 53) (-53) .exact := by
  unfold UnpackedFloat.ofScientific
  rw [dif_neg hm, if_neg (by simp; omega), if_neg (by simp; omega), if_pos (by omega),
    Nat.shiftLeft_eq (m * 10 ^ e), Nat.mul_right_comm, ← Nat.shiftLeft_eq]
  rfl

/-- A number outside the table of exact powers is scaled and rounded once. -/
theorem ofDecimal_eq {m e : Nat} (hm : m ≠ 0) (he : e ≤ 400)
    (hslow : ¬ (m < 2 ^ 53 ∧ e ≤ 22)) : ofDecimal false m e =
      ofUnpacked
        (roundWithAccuracy Format.binary64 .positive ((m * 10 ^ e) <<< 53) (-53) .exact) := by
  have scientific : (OfScientific.ofScientific m ((e : Int) < 0) (e : Int).natAbs : Float) =
      .ofModel (.ofScientific m e) := by
    change Float.ofScientific m ((e : Int) < 0) e = _
    have up : decide ((e : Int) < 0) = false := decide_eq_false (by omega)
    rw [Float.ofScientific, dif_neg hslow, up]
    rfl
  rw [ofDecimal, if_neg hm, if_neg (by omega), if_neg (by simp), scientific,
    Float.Model.ofScientific, ofScientific_eq hm (by omega)]
  rfl

private theorem fits_ofNat {n : Nat} (hpos : 0 < n) (hn : n < 2 ^ 53) :
    Fits 1076 (UnpackedFloat.ofNat Format.binary64 n) := by
  rw [UnpackedFloat.ofNat, UnpackedFloat.ofInt,
    UnpackedFloat.normalize, Int.compare_eq_gt.mpr (by omega)]
  simp only [Int.toNat_natCast]
  rw [UnpackedFloat.round, decreaseExponent]
  generalize (0 - Format.binary64.targetExponent (totalExponent n 0)).toNat = k
  have hlog : n.log2 ≤ 52 := log2_le_of_lt hn
  refine fits_round (by decide) (by omega) ?_ _ _
  rw [totalExponent, log2_shiftLeft hpos.ne']
  omega

/-- A natural number of the precision of the format is multiplied by the first exact power. -/
private theorem ofNat_eq {n : Nat} (hpos : 0 < n) (hn : n < 2 ^ 53) :
    ofNat n = ofUnpacked (UnpackedFloat.mul Format.binary64
      (UnpackedFloat.unpack Format.binary64
        (ofUnpacked (UnpackedFloat.ofNat Format.binary64 n)).bits.toBitVec)
      (Float.ofBits 0x3FF0000000000000).toModel.unpack) := by
  have wide : n.toUInt64.toNat = n := Nat.mod_eq_of_lt (by omega)
  have float : n.toUInt64.toFloat = .ofModel (.pack (.ofNat Format.binary64 n)) := by
    change Float.ofModel (.pack (.ofNat Format.binary64 n.toUInt64.toNat)) = _
    rw [wide]
  have scientific : (OfScientific.ofScientific n ((0 : Int) < 0) (0 : Int).natAbs : Float) =
      n.toUInt64.toFloat * Float.ofBits 0x3FF0000000000000 := by
    change Float.ofScientific n false 0 = _
    rw [Float.ofScientific, dif_pos ⟨hn, by decide⟩]
    rfl
  rw [ofNat, ofDecimal, if_neg hpos.ne', if_neg (by decide), if_neg (by simp), scientific, float]
  rfl

private theorem isFinite_ofNat_exact {n : Nat} (hpos : 0 < n) (hn : n < 2 ^ 53) :
    (ofNat n).isFinite := by
  obtain ⟨hone, one⟩ : ∃ h, (Float.ofBits 0x3FF0000000000000).toModel.unpack =
      .finite .positive (2 ^ 52) (-52) h := ⟨by decide, rfl⟩
  rw [ofNat_eq hpos hn, one]
  refine isFinite_of_fits ?_
  rcases within_unpack (by decide) (by decide)
    (magnitude_lt_of_fits (fits_ofNat hpos hn) (by decide)) with
      ⟨s, hu⟩ | ⟨s, m, e, hm, hu, hsig, he⟩
  · rw [hu]
    exact .zero _
  · have hlog : m.log2 ≤ 52 := log2_le_of_lt hsig
    rw [hu]
    change Fits 2046 (roundWithAccuracy _ (s * .positive) (m * 2 ^ 52) (e + -52) .exact)
    refine fits_round (by decide) (by omega) ?_ _ _
    rw [totalExponent, ← Nat.shiftLeft_eq, log2_shiftLeft hm.ne']
    omega

theorem isFinite_ofNat {n : Nat} (h : n ≤ wordBound) : (ofNat n).isFinite := by
  by_cases hzero : n = 0
  · subst hzero
    decide +kernel
  by_cases hexact : n < 2 ^ 53
  · exact isFinite_ofNat_exact (by omega) hexact
  · have hlog : (n * 10 ^ 0).log2 ≤ 64 := by
      rw [Nat.pow_zero, Nat.mul_one]
      exact log2_le_of_lt (h.trans_lt (by decide))
    have fits : Fits 2046
        (roundWithAccuracy Format.binary64 .positive ((n * 10 ^ 0) <<< 53) (-53) .exact) := by
      refine fits_round (by decide) (by decide) ?_ _ _
      rw [totalExponent, log2_shiftLeft (by simpa using hzero)]
      omega
    have rounded := ofDecimal_eq (e := 0) hzero (by decide) (by omega)
    rw [Nat.cast_zero] at rounded
    rw [ofNat, rounded]
    exact isFinite_of_fits fits

/-- A power of ten of the format, other than one, is finite and at least eight. -/
private theorem power_bounds {k : Nat} (hpos : 1 ≤ k) (hk : k ≤ 308) :
    1026 * leadingWeight ≤ (ofDecimal false 1 k).magnitude ∧ (ofDecimal false 1 k).isFinite := by
  by_cases hsmall : k ≤ 22
  · have table : ∀ k ≤ 22, 1 ≤ k →
        1026 * leadingWeight ≤ (ofDecimal false 1 (k : Nat)).magnitude ∧
          (ofDecimal false 1 (k : Nat)).isFinite := by decide +kernel
    exact table k hsmall hpos
  by_cases hlast : k = 308
  · subst hlast
    decide +kernel
  have hlow : 3 ≤ (1 * 10 ^ k).log2 := by
    have hten : 10 ≤ 10 ^ k := Nat.le_self_pow (by omega) 10
    exact (Nat.le_log2 (by simp)).mpr (by omega)
  have hhigh : (1 * 10 ^ k).log2 ≤ 1019 := by
    rw [Nat.one_mul]
    exact log2_le_of_lt
      ((Nat.pow_le_pow_right (by decide) (by omega : k ≤ 307)).trans_lt (by decide +kernel))
  have hlog : ((1 * 10 ^ k) <<< 53).log2 = (1 * 10 ^ k).log2 + 53 := log2_shiftLeft (by simp) 53
  have fits : Fits 2046
      (roundWithAccuracy Format.binary64 .positive ((1 * 10 ^ k) <<< 53) (-53) .exact) := by
    refine fits_round (by decide) (by decide) ?_ _ _
    rw [totalExponent]
    omega
  have normal : NormalFrom 1026
      (roundWithAccuracy Format.binary64 .positive ((1 * 10 ^ k) <<< 53) (-53) .exact) :=
    round_normal (by omega) (by omega) _ _ (by omega)
  rw [ofDecimal_eq (by decide) (by omega) (by omega)]
  exact ⟨le_magnitude_of_normal normal fits (by decide), isFinite_of_fits fits⟩

/-- A finite number divided by a power of ten is finite. -/
theorem isFinite_div_power {n : Number} (hn : n.isFinite) {k : Nat} (hpos : 1 ≤ k)
    (hk : k ≤ 308) : (n / ofDecimal false 1 k).isFinite := by
  obtain ⟨hlow, hfinite⟩ := power_bounds hpos hk
  have hn : n.magnitude < (2046 + 1) * leadingWeight := of_decide_eq_true hn
  exact isFinite_of_fits (fits_div (within_operand (by decide) (by decide) hn)
    (normal_operand (by decide) hlow hfinite))

end Powers

section Signs

theorem magnitude_negate (n : Number) : n.negate.magnitude = n.magnitude := by
  have bits : n.negate.bits.toNat = n.bits.toNat ^^^ 2 ^ 63 := rfl
  rw [magnitude, magnitude, bits, signWeight, Nat.xor_mod_two_pow (n := 63)]
  simp

theorem isNegative_negate (n : Number) : n.negate.isNegative = !n.isNegative := by
  have bits : n.negate.bits.toNat = n.bits.toNat ^^^ 2 ^ 63 := rfl
  have top {k : Nat} (hk : k < 2 ^ 64) : decide (signWeight ≤ k) = k.testBit 63 := by
    rw [Nat.testBit_eq_decide_div_mod_eq, decide_eq_decide]
    simp only [signWeight]
    omega
  rw [isNegative, isNegative, top n.negate.bits.toNat_lt, top n.bits.toNat_lt, bits,
    Nat.testBit_xor, Nat.testBit_two_pow_self, Bool.xor_true]

theorem isFinite_withSign {n : Number} (negative : Bool) (h : n.isFinite) :
    (withSign negative n).isFinite := by
  cases negative with
  | false => exact h
  | true => rwa [withSign, if_pos rfl, isFinite, magnitude_negate]

end Signs

theorem isFinite_ofInt {i : Int} (h : i.natAbs ≤ wordBound) : (ofInt i).isFinite :=
  isFinite_withSign (i < 0) (isFinite_ofNat h)

end Number

end Pagewright
