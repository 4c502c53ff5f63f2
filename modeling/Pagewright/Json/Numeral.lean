import Pagewright.Json.Basic
import Pagewright.Number.Read

/-!
Numerals of data documents. A numeral without fraction and exponent that fits 64 bits is an
integer. Any other is scaled: as many leading digits as fit 64 bits form the significand, which
is rounded once and then multiplied or divided by a power of ten, which rounds again.
-/

namespace Pagewright

namespace Json

/-- Takes further digits into a significand for as long as it fits. The second component counts
the digits taken. -/
def takeDigits (significand : Nat) : List Char → Nat × Nat
  | [] => (significand, 0)
  | c :: rest =>
    let next := 10 * significand + (c.toNat - '0'.toNat)
    if next < wordBound then
      let (result, taken) := takeDigits next rest
      (result, taken + 1)
    else (significand, 0)

/-- Scales by a power of ten in floating point. A power beyond the table is applied in steps on
the way down and is out of range on the way up. -/
def scale? : Nat → Number → Int → Option Number
  | 0, n, _ => some n
  | fuel + 1, n, e =>
    if 0 ≤ e then
      if e ≤ 308 then
        let scaled := n * Number.ofDecimal false 1 e
        if scaled.isFinite then some scaled else none
      else if n.isZero then some n
      else none
    else if -308 ≤ e then some (n / Number.ofDecimal false 1 (-e))
    else if n.isZero then some n
    else scale? fuel (n / Number.ofDecimal false 1 308) (e + 308)

/-- The parts of a numeral: sign, digits before and after the point, and the exponent. -/
structure Numeral where
  negative : Bool
  whole : List Char
  fraction : List Char
  exponent : Option Int

/-- The floating-point value of a numeral, unless it is out of range. After three steps down the
significand has vanished. -/
def Numeral.scaled? (n : Numeral) : Option Number :=
  let (significand, taken) := takeDigits 0 n.whole
  let (significand, more) := takeDigits significand n.fraction
  let e : Int := (n.whole.length - taken : Nat) - (more : Int) + n.exponent.getD 0
  (scale? 4 (Number.ofNat significand) e).map (Number.withSign n.negative)

def Numeral.toJson (n : Numeral) : Json :=
  let magnitude := digitsValue n.whole
  let value : Int := if n.negative then -(magnitude : Int) else magnitude
  let whole := n.fraction = [] && n.exponent = none && !(n.negative && magnitude = 0)
  if whole && leastInt64 ≤ value && value < wordBound then .int value
  else match n.scaled? with
    | some x => .number x
    | none => .unusable

/-- The numeral at the beginning of a text, and the rest of the text. A leading zero stands alone,
and a point or an exponent mark is followed by a digit. -/
def readNumeral? (cs : List Char) : Option (Numeral × List Char) :=
  let (negative, rest) := match cs with
    | '-' :: rest => (true, rest)
    | rest => (false, rest)
  let (whole, rest) := match rest with
    | '0' :: rest => (['0'], rest)
    | rest => splitDigits rest
  let startsWithDigit := match rest with
    | c :: _ => c.isDigit
    | [] => false
  if whole = [] || startsWithDigit then none
  else
    let fraction? := match rest with
      | '.' :: rest =>
        let (digits, rest) := splitDigits rest
        if digits = [] then none else some (digits, rest)
      | rest => some ([], rest)
    fraction?.bind fun (fraction, rest) =>
      match rest with
      | c :: after =>
        if c = 'e' || c = 'E' then
          let (sign, after) := splitSign after
          let (digits, after) := splitDigits after
          let e : Int := digitsValue digits
          if digits = [] then none
          else some (⟨negative, whole, fraction, some (if sign = ['-'] then -e else e)⟩, after)
        else some (⟨negative, whole, fraction, none⟩, rest)
      | [] => some (⟨negative, whole, fraction, none⟩, [])

end Json

end Pagewright
