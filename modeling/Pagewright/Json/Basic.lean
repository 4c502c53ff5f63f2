import Pagewright.Number.Basic

/-!
Data documents as trees. Whole numbers of up to 64 bits stay integers; members keep their order
and repetitions, so what a repeated key means is decided by whoever reads the object.
-/

namespace Pagewright

inductive Json where
  | null
  | bool (value : Bool)
  | int (value : Int)
  | number (value : Number)
  | string (value : String)
  | array (items : List Json)
  | object (members : List (String × Json))
  /-- A literal of correct form without a value, such as a number beyond the range or a string
  with half a surrogate pair. It may stand only where nothing reads it. -/
  | unusable
deriving Repr, Inhabited

namespace Json

/-- Whole numbers below this bound are exact up to the next whole number. -/
def exactBound : Nat := 0x20000000000000

/-- A finite number as a document, in integers when it is whole and exactly representable in its
neighbourhood; a number that is not finite is null. -/
def ofNumber (n : Number) : Json :=
  if !n.isFinite then .null
  else if n.isIntegral && n.wholePart < exactBound then .int n.truncate
  else .number n

end Json

end Pagewright
