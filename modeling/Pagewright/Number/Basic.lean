/-!
Binary floating-point numbers of 64 bits, kept as their bit patterns. Order and equality are
read off the pattern, so they need no arithmetic: `rank` is the position in the total order of
all patterns, `position` the place on the number line with both zeros at the origin.
-/

namespace Pagewright

def wordBound : Nat := 0x10000000000000000

def leastInt64 : Int := -0x8000000000000000

def greatestInt64 : Int := 0x7FFFFFFFFFFFFFFF

/-- A number in the 64-bit binary interchange format. -/
structure Number where
  /-- Sign, biased exponent and trailing significand, from the top bit down. -/
  bits : UInt64
deriving DecidableEq, Repr, Inhabited

namespace Number

def signWeight : Nat := 0x8000000000000000

/-- The weight of the lowest exponent bit, which is the least significand of full precision. -/
def leadingWeight : Nat := 0x10000000000000

/-- The magnitude of the infinities; every larger magnitude is a NaN. -/
def infinityMagnitude : Nat := 0x7FF * leadingWeight

def isNegative (n : Number) : Bool := signWeight ≤ n.bits.toNat

def magnitude (n : Number) : Nat := n.bits.toNat % signWeight

def isNaN (n : Number) : Bool := infinityMagnitude < n.magnitude

def isFinite (n : Number) : Bool := n.magnitude < infinityMagnitude

/-- Whether the number is a zero of either sign. -/
def isZero (n : Number) : Bool := n.magnitude = 0

/-- Whether the number is finite, not zero, and has the full precision of the format. -/
def isNormal (n : Number) : Bool := leadingWeight ≤ n.magnitude && n.isFinite

/-- The place in the total order: negative patterns by falling magnitude, then the others. -/
def rank (n : Number) : Int := if n.isNegative then -(n.magnitude : Int) - 1 else n.magnitude

/-- The place on the number line, in which both zeros are at the origin. -/
def position (n : Number) : Int := if n.isNegative then -(n.magnitude : Int) else n.magnitude

/-- Numeric comparison; a NaN compares with nothing. -/
def le (a b : Number) : Bool := !a.isNaN && !b.isNaN && a.position ≤ b.position

/-- Numeric equality; the zeros are equal and a NaN equals nothing. -/
def same (a b : Number) : Bool := !a.isNaN && !b.isNaN && a.position = b.position

/-- The total order of all patterns. -/
def precedes (a b : Number) : Bool := a.rank ≤ b.rank

def negate (n : Number) : Number := ⟨n.bits ^^^ 0x8000000000000000⟩

def infinity : Number := ⟨0x7FF0000000000000⟩

def notANumber : Number := ⟨0x7FF8000000000000⟩

/-- Gives a number of positive sign the sign asked for. -/
def withSign (negative : Bool) (n : Number) : Number := if negative then n.negate else n

def toFloat (n : Number) : Float := Float.ofBits n.bits

def ofFloat (x : Float) : Number := ⟨x.toBits⟩

def add (a b : Number) : Number := ofFloat (a.toFloat + b.toFloat)

def mul (a b : Number) : Number := ofFloat (a.toFloat * b.toFloat)

def div (a b : Number) : Number := ofFloat (a.toFloat / b.toFloat)

instance : Add Number := ⟨add⟩
instance : Mul Number := ⟨mul⟩
instance : Div Number := ⟨div⟩

/-- The number nearest to `m * 10 ^ e`. Exponents far outside the format are settled by size
alone: from `10 ^ 400` on a nonzero value overflows, and below `2 ^ -1100` it vanishes. -/
def ofDecimal (negative : Bool) (m : Nat) (e : Int) : Number :=
  withSign negative <|
    if m = 0 then ofFloat 0
    else if 400 < e then infinity
    else if e < 0 && (m.log2 : Int) + 1 + 3 * e < -1100 then ofFloat 0
    else ofFloat (OfScientific.ofScientific m (e < 0) e.natAbs)

def ofNat (n : Nat) : Number := ofDecimal false n 0

def ofInt (i : Int) : Number := ofDecimal (i < 0) i.natAbs 0

instance (n : Nat) : OfNat Number n := ⟨ofNat n⟩

instance : OfScientific Number :=
  ⟨fun m down e => ofDecimal false m (if down then -(e : Int) else e)⟩

def significand (n : Number) : Nat :=
  if n.magnitude / leadingWeight = 0 then n.magnitude
  else n.magnitude % leadingWeight + leadingWeight

/-- The power of two that scales the significand of a finite number. -/
def exponent (n : Number) : Int :=
  if n.magnitude / leadingWeight = 0 then -1074
  else (n.magnitude / leadingWeight : Nat) - 1075

def isIntegral (n : Number) : Bool :=
  0 ≤ n.exponent || n.significand % Nat.pow 2 n.exponent.natAbs = 0

/-- The absolute value of a finite number, rounded toward zero. -/
def wholePart (n : Number) : Nat :=
  if 0 ≤ n.exponent then n.significand * Nat.pow 2 n.exponent.natAbs
  else n.significand / Nat.pow 2 n.exponent.natAbs

def truncate (n : Number) : Int := if n.isNegative then -(n.wholePart : Int) else n.wholePart

def floor (n : Number) : Int :=
  if n.isNegative && !n.isIntegral then n.truncate - 1 else n.truncate

/-- The floor as a signed 64-bit integer: a NaN gives zero, and the ends of the range stand for
everything beyond them. -/
def floorInt64 (n : Number) : Int :=
  if n.isNaN then 0
  else if !n.isFinite then if n.isNegative then leastInt64 else greatestInt64
  else max leastInt64 (min greatestInt64 n.floor)

end Number

end Pagewright
