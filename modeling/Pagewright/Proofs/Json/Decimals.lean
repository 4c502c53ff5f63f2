import Pagewright.Proofs.Json.Numerals

/-! The text of every number is a numeral of documents: digits with a point, and an exponent where
the number is very large or very small. -/

namespace Pagewright

namespace Number

variable {n : Number} {g : OnGrid} {endsIncluded tieUp : Bool} {j : Nat}

private theorem OnGrid.ne_zero_of_choose? (hlow : 0 < g.low)
    (h : g.choose? endsIncluded tieUp = some j) : j ≠ 0 := by
  have hzero : g.readsBack endsIncluded 0 = false := by
    have : ¬ g.low ≤ 0 := by omega
    cases endsIncluded <;> simp [readsBack, this]
  rintro rfl
  unfold choose? at h
  dsimp only at h
  generalize g.point / g.step = below at h
  split at h
  · next hboth =>
    have hbelow : below ≠ 0 := fun e => by simp [e, hzero] at hboth
    have := Option.some.inj h
    split at this <;> omega
  split at h
  · next hlower =>
    rw [Option.some.inj h, hzero] at hlower
    cases hlower
  split at h
  · cases h
  · cases h

private theorem onGrid_low_pos (h : n.isZero = false) (k : Int) : 0 < (n.onGrid k).low := by
  have hmagnitude : n.magnitude ≠ 0 := by simpa [isZero] using h
  have hsignificand : 0 < n.significand := by
    have hweight : 0 < leadingWeight := by decide
    unfold significand
    split <;> omega
  unfold onGrid
  dsimp only
  refine Nat.mul_pos ?_ (Nat.mul_pos (Nat.pow_pos (by decide)) (Nat.pow_pos (by decide)))
  split <;> omega

/-- Only zero is written with the digit zero, and that without an exponent. -/
theorem shortest_exponent_of_zero (h : (n.shortest tieUp).coefficient = 0) :
    (n.shortest tieUp).exponent = 0 := by
  unfold shortest at h ⊢
  split at h
  · next hzero => rw [if_pos hzero]
  · next hzero =>
    rw [if_neg hzero]
    dsimp only at h ⊢
    generalize hfound : List.findSome? _ _ = found at h ⊢
    cases found with
    | none => rfl
    | some d =>
      obtain ⟨i, -, hi⟩ := List.exists_of_findSome?_eq_some hfound
      obtain ⟨j, hj, rfl⟩ := Option.map_eq_some_iff.mp hi
      exact absurd h (OnGrid.ne_zero_of_choose? (onGrid_low_pos (by simpa using hzero) _) hj)

open Json

private theorem isDigit_zeros (k : Nat) : ∀ c ∈ zeros k, c.isDigit := by
  intro c hc
  rw [List.eq_of_mem_replicate hc]
  rfl

/-- Digits with a point after some of them. -/
private theorem positionalText_parts (coefficient : Nat) (point : Int)
    (hzero : coefficient = 0 → point = 1) : ∃ whole fraction, IsWhole whole ∧
      (∀ c ∈ fraction, c.isDigit) ∧
      positionalText true (Nat.toDigits 10 coefficient) point =
        whole ++ (if fraction = [] then [] else '.' :: fraction) := by
  have hdigits := isDigit_toDigits coefficient
  have hwhole := IsWhole.toDigits coefficient
  generalize htext : Nat.toDigits 10 coefficient = digits at hdigits hwhole ⊢
  have hfull : 0 < digits.length := List.length_pos_iff.mpr hwhole.full
  unfold positionalText
  split
  · refine ⟨['0'], zeros (-point).toNat ++ digits, ?_, ?_, ?_⟩
    · exact ⟨nofun, by simp, fun _ h => (List.cons.inj h).2.symm⟩
    · intro c hc
      rcases List.mem_append.mp hc with hc | hc
      · exact isDigit_zeros _ c hc
      · exact hdigits c hc
    · simp [hwhole.full]
  split
  · refine ⟨digits ++ zeros (point.toNat - digits.length), ['0'], ?_, by simp, by simp⟩
    refine ⟨by simp [hwhole.full], ?_, fun rest h => ?_⟩
    · intro c hc
      rcases List.mem_append.mp hc with hc | hc
      · exact hdigits c hc
      · exact isDigit_zeros _ c hc
    · -- Nothing but the digit zero begins with zero, and that stands before the point alone.
      cases digits with
      | nil => exact absurd rfl hwhole.full
      | cons c tail =>
        obtain ⟨rfl, hrest⟩ := List.cons.inj h
        obtain rfl := hwhole.zero tail rfl
        have hvalue : Nat.ofDigitChars 10 (Nat.toDigits 10 coefficient) 0 = coefficient :=
          Nat.ofDigitChars_toDigits (by decide) (by decide)
        rw [htext] at hvalue
        have hpoint : point = 1 := hzero hvalue.symm
        rw [← hrest, hpoint]
        rfl
  · next hpositive hlong =>
    refine ⟨digits.take point.toNat, digits.drop point.toNat, ⟨?_, ?_, fun rest h => ?_⟩, ?_, ?_⟩
    · simp only [ne_eq, List.take_eq_nil_iff, not_or]
      exact ⟨by omega, hwhole.full⟩
    · exact fun c hc => hdigits c (List.mem_of_mem_take hc)
    · cases digits with
      | nil => exact absurd rfl hwhole.full
      | cons c tail =>
        obtain ⟨m, hm⟩ : ∃ m, point.toNat = m + 1 := ⟨point.toNat - 1, by omega⟩
        rw [hm, List.take_succ_cons] at h
        obtain ⟨rfl, rfl⟩ := List.cons.inj h
        rw [hwhole.zero tail rfl, List.take_nil]
    · exact fun c hc => hdigits c (List.mem_of_mem_drop hc)
    · have hrest : digits.drop point.toNat ≠ [] := by
        simp only [ne_eq, List.drop_eq_nil_iff]
        exact hlong
      rw [if_neg hrest]

/-- One digit, a point before the others, and an exponent. -/
private theorem exponentText_parts (coefficient : Nat) (exponent : Int) :
    ∃ whole fraction mark, IsWhole whole ∧ (∀ c ∈ fraction, c.isDigit) ∧ IsExponent mark ∧
      exponentText (Nat.toDigits 10 coefficient) exponent =
        whole ++ ((if fraction = [] then [] else '.' :: fraction) ++ mark) := by
  have hdigits := isDigit_toDigits coefficient
  have hfull : Nat.toDigits 10 coefficient ≠ [] := Nat.toDigits_ne_nil
  generalize Nat.toDigits 10 coefficient = digits at hdigits hfull ⊢
  obtain ⟨first, others, rfl⟩ := List.exists_cons_of_ne_nil hfull
  obtain ⟨hfirst, hothers⟩ := List.forall_mem_cons.mp hdigits
  refine ⟨[first], others, 'e' :: (if exponent < 0 then '-' else '+') ::
    Nat.toDigits 10 exponent.natAbs, ⟨nofun, by simpa using hfirst, fun _ h =>
      (List.cons.inj h).2.symm⟩, hothers, ⟨_, _, rfl, ?_, Nat.toDigits_ne_nil,
        isDigit_toDigits _⟩, ?_⟩
  · split
    · exact .inl rfl
    · exact .inr rfl
  · simp [exponentText]

/-- A finite number is written as a numeral. -/
theorem exists_readNumeral?_finiteText (n : Number) :
    ∃ found, readNumeral? (n.finiteText documentLayout).toList = some (found, []) := by
  have hzero : (n.shortest documentLayout.tieUp).coefficient = 0 →
      (n.shortest documentLayout.tieUp).exponent = 0 := shortest_exponent_of_zero
  rw [finiteText, String.toList_ofList]
  generalize n.shortest documentLayout.tieUp = d at hzero
  unfold decimalText
  extract_lets digits point plain
  by_cases hplain : plain
  · have hpoint : d.coefficient = 0 → point = 1 := fun h => by
      simp [point, digits, h, hzero h]
    obtain ⟨whole, fraction, hwhole, hfraction, htext⟩ :=
      positionalText_parts d.coefficient point hpoint
    have hread := readNumeral?_parts n.isNegative hwhole hfraction (.inl rfl)
    rw [List.append_nil, ← htext] at hread
    rw [if_pos hplain]
    exact hread
  · obtain ⟨whole, fraction, mark, hwhole, hfraction, hmark, htext⟩ :=
      exponentText_parts d.coefficient (point - 1)
    have hread := readNumeral?_parts n.isNegative hwhole hfraction (.inr hmark)
    rw [← htext] at hread
    rw [if_neg hplain]
    exact hread

end Number

end Pagewright
