import Pagewright.Json.Basic
import Pagewright.Number.Read
import Pagewright.Number.Text

/-! Scalar values, the only ones that styles, props and keyframes hold. -/

namespace Pagewright

inductive Scalar where
  | bool (value : Bool)
  | number (value : Number)
  | text (value : String)
deriving DecidableEq, Repr, Inhabited

namespace Scalar

def asText? : Scalar → Option String
  | .text s => some s
  | _ => none

def asNumber? : Scalar → Option Number
  | .number n => some n
  | _ => none

def asBool? : Scalar → Option Bool
  | .bool b => some b
  | _ => none

/-- Whether a value counts as set: empty text, zero, NaN and `false` do not. -/
def isTruthy : Scalar → Bool
  | .bool b => b
  | .number n => !n.isZero && !n.isNaN
  | .text s => s ≠ ""

/-- The value as a number; of a text, the number at its beginning. -/
def toNumber? : Scalar → Option Number
  | .bool _ => none
  | .number n => some n
  | .text s => Number.leading? s.toList

def shown : Scalar → String
  | .bool b => if b then "true" else "false"
  | .number n => n.plainText
  | .text s => s

/-- The value as data in generated code, where whole numbers are integers. -/
def toJson : Scalar → Json
  | .bool b => .bool b
  | .number n => .ofNumber n
  | .text s => .string s

/-- The value as it is stored in documents, where every number is a floating-point one. -/
def toDocument : Scalar → Json
  | .bool b => .bool b
  | .number n => .number n
  | .text s => .string s

end Scalar

end Pagewright
