/-! Blank characters, by the White_Space property of Unicode, and trimming at either end. -/

namespace Pagewright

/-- The code points with the White_Space property, as ascending inclusive ranges. -/
def blankRanges : List (Nat × Nat) :=
  [(0x09, 0x0D), (0x20, 0x20), (0x85, 0x85), (0xA0, 0xA0), (0x1680, 0x1680), (0x2000, 0x200A),
   (0x2028, 0x2029), (0x202F, 0x202F), (0x205F, 0x205F), (0x3000, 0x3000)]

/-- A character is blank when its code point lies in one of the ranges. -/
def isBlank (c : Char) : Bool :=
  blankRanges.any fun r => r.1 ≤ c.toNat && c.toNat ≤ r.2

def trimStart (cs : List Char) : List Char := cs.dropWhile isBlank

def trimEnd (cs : List Char) : List Char := (cs.reverse.dropWhile isBlank).reverse

def trim (cs : List Char) : List Char := trimEnd (trimStart cs)

theorem toNat_lt_of_isAlphanum {c : Char} (h : c.isAlphanum) : c.toNat < 128 := by
  have hupper (h : c.isUpper) : c.toNat ≤ 90 :=
    UInt32.le_iff_toNat_le.mp (of_decide_eq_true h).2
  have hlower (h : c.isLower) : c.toNat ≤ 122 :=
    UInt32.le_iff_toNat_le.mp (of_decide_eq_true (Bool.and_eq_true_iff.mp h).2)
  have hdigit (h : c.isDigit) : c.toNat ≤ 57 := (Char.isDigit_iff_toNat.mp h).2
  rcases Bool.or_eq_true_iff.mp h with h | h
  · rcases Bool.or_eq_true_iff.mp h with h | h
    · have := hupper h
      omega
    · have := hlower h
      omega
  · have := hdigit h
    omega

/-- What holds of the letters and digits among the first code points holds of all of them. -/
theorem forall_isAlphanum {p : Char → Prop}
    (below : ∀ n < 128, (Char.ofNat n).isAlphanum → p (Char.ofNat n)) {c : Char}
    (h : c.isAlphanum) : p c := by
  have hc := below c.toNat (toNat_lt_of_isAlphanum h)
  rw [Char.ofNat_toNat] at hc
  exact hc h

theorem not_isBlank_of_isAlphanum {c : Char} (h : c.isAlphanum) : ¬ isBlank c :=
  forall_isAlphanum (p := fun c => ¬ isBlank c) (by decide) h

end Pagewright
