import Pagewright.Number.Shortest

/-!
Numbers as text. All styles write the shortest digits that read back; they differ in where the
exponent notation begins, in whether a whole number shows a decimal point, and in ties.
-/

namespace Pagewright

namespace Number

structure Layout where
  /-- Of two equally short and near decimals, take the upper one rather than the even one. -/
  tieUp : Bool
  /-- The least and greatest exponent of the leading digit that are written without an exponent
  mark; every exponent when missing. -/
  positional : Option (Int × Int)
  /-- Whole numbers end in a point and a zero. -/
  marksWhole : Bool

/-- The layout of values in generated text: never an exponent. -/
def plainLayout : Layout := ⟨true, none, false⟩

/-- The layout of data documents, in which a number always shows a point or an exponent. -/
def documentLayout : Layout := ⟨false, some (-5, 15), true⟩

def zeros (n : Nat) : List Char := List.replicate n '0'

/-- Digits with a decimal point after the first `point` of them, filled up with zeros. -/
def positionalText (marksWhole : Bool) (digits : List Char) (point : Int) : List Char :=
  if point ≤ 0 then ['0', '.'] ++ zeros (-point).toNat ++ digits
  else if digits.length ≤ point.toNat then
    digits ++ zeros (point.toNat - digits.length) ++ (if marksWhole then ['.', '0'] else [])
  else digits.take point.toNat ++ '.' :: digits.drop point.toNat

/-- Digits with a point after the first and the exponent of that first digit. -/
def exponentText (digits : List Char) (exponent : Int) : List Char :=
  let rest := digits.drop 1
  digits.take 1 ++ (if rest = [] then [] else '.' :: rest) ++
    ['e', if exponent < 0 then '-' else '+'] ++ Nat.toDigits 10 exponent.natAbs

def decimalText (layout : Layout) (d : Decimal) : List Char :=
  let digits := Nat.toDigits 10 d.coefficient
  let point := (digits.length : Int) + d.exponent
  let plain := match layout.positional with
    | none => true
    | some (least, greatest) => least ≤ point - 1 && point - 1 ≤ greatest
  if plain then positionalText layout.marksWhole digits point else exponentText digits (point - 1)

def finiteText (layout : Layout) (n : Number) : String :=
  String.ofList ((if n.isNegative then ['-'] else []) ++ decimalText layout (n.shortest layout.tieUp))

/-- A number in generated text. -/
def plainText (n : Number) : String :=
  if n.isNaN then "NaN"
  else if !n.isFinite then (if n.isNegative then "-inf" else "inf")
  else n.finiteText plainLayout

end Number

end Pagewright
