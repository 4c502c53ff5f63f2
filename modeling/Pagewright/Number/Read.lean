import Pagewright.Number.Basic
import Pagewright.Text.Blank

/-!
Reading numbers from text: a whole text as a number, and the longest numeric beginning of a text
after its leading blanks.
-/

namespace Pagewright

def digitsValue (digits : List Char) : Nat :=
  digits.foldl (fun acc c => 10 * acc + (c.toNat - '0'.toNat)) 0

def splitSign : List Char → List Char × List Char
  | '+' :: rest => (['+'], rest)
  | '-' :: rest => (['-'], rest)
  | cs => ([], cs)

def splitDigits (cs : List Char) : List Char × List Char :=
  (cs.takeWhile Char.isDigit, cs.dropWhile Char.isDigit)

/-- Digits are split off up to the first character that is none. -/
theorem splitDigits_of_digits {digits rest : List Char} (hdigits : ∀ c ∈ digits, c.isDigit)
    (hrest : ∀ c ∈ rest.head?, ¬ c.isDigit) : splitDigits (digits ++ rest) = (digits, rest) := by
  rw [splitDigits, List.takeWhile_append_of_pos hdigits, List.dropWhile_append_of_pos hdigits]
  cases rest with
  | nil => simp
  | cons c after => simp [hrest c rfl]

namespace Number

/-- An optional exponent that ends the text; a text that goes on otherwise has none. -/
def readExponent? : List Char → Option Int
  | [] => some 0
  | c :: rest =>
    if c = 'e' || c = 'E' then
      let (sign, rest) := splitSign rest
      let (digits, rest) := splitDigits rest
      if digits = [] || rest ≠ [] then none
      else some (if sign = ['-'] then -(digitsValue digits : Int) else digitsValue digits)
    else none

/-- An unsigned number: digits with an optional point, at least one digit, and an optional
exponent. The result is rounded to nearest. -/
def readMagnitude? (negative : Bool) (cs : List Char) : Option Number :=
  let (whole, rest) := splitDigits cs
  let (fraction, rest) := match rest with
    | '.' :: rest => splitDigits rest
    | rest => ([], rest)
  if whole ++ fraction = [] then none
  else (readExponent? rest).map fun e =>
    ofDecimal negative (digitsValue (whole ++ fraction)) (e - fraction.length)

/-- A whole text as a number, with an optional sign; infinities and NaN have their names, in
letters of either case. -/
def ofText? (cs : List Char) : Option Number :=
  let (sign, rest) := splitSign cs
  let negative := sign = ['-']
  let name := String.ofList (rest.map Char.toLower)
  if name = "inf" || name = "infinity" then some (withSign negative infinity)
  else if name = "nan" then some (withSign negative notANumber)
  else readMagnitude? negative rest

/-- The longest beginning that is an optional sign and digits with an optional point, when it
holds a digit. -/
def decimalLead? (cs : List Char) : Option (List Char) :=
  let (sign, rest) := splitSign cs
  let (whole, rest) := splitDigits rest
  let fraction := match rest with
    | '.' :: rest => '.' :: (splitDigits rest).1
    | _ => []
  if whole ++ fraction = [] || whole ++ fraction = ['.'] then none
  else some (sign ++ whole ++ fraction)

/-- The longest beginning that is an optional sign and digits, when it holds a digit. -/
def integerLead? (cs : List Char) : Option (List Char) :=
  let (sign, rest) := splitSign cs
  let (digits, _) := splitDigits rest
  if digits = [] then none else some (sign ++ digits)

/-- The number at the beginning of a text, after leading blanks. -/
def leading? (cs : List Char) : Option Number := (decimalLead? (trimStart cs)).bind ofText?

end Number

/-- An integer with an optional sign, when it fits 64 signed bits. -/
def readInt64? (cs : List Char) : Option Int :=
  let (sign, digits) := splitSign cs
  let value : Int := if sign = ['-'] then -(digitsValue digits : Int) else digitsValue digits
  if digits = [] || !digits.all Char.isDigit then none
  else if leastInt64 ≤ value && value ≤ greatestInt64 then some value else none

/-- The integer at the beginning of a text, after leading blanks, when it fits 64 signed bits. -/
def leadingInt? (cs : List Char) : Option Int :=
  (Number.integerLead? (trimStart cs)).bind readInt64?

end Pagewright
