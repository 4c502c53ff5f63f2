import Pagewright.Dict
import Pagewright.Json.Reader
import Pagewright.Scalar

/-!
Reading parts of a document by their form. A record is an object or, in short, an array of its
fields in order; what it does not name is ignored. Every array or object that is read counts
against a limit of nesting, while ignored parts may be as deep as they like.
-/

namespace Pagewright

/-- Reads a part of a document, given how many levels of nesting it may have. -/
abbrev Decoder (α : Type) : Type := Nat → Json → Option α

/-- How deep the arrays and objects that are read may be nested. -/
def nestingLimit : Nat := 127

namespace Decoder

variable {α : Type}

def string : Decoder String
  | _, .string s => some s
  | _, _ => none

def bool : Decoder Bool
  | _, .bool b => some b
  | _, _ => none

/-- A number; an integer is rounded to the nearest one. -/
def number : Decoder Number
  | _, .number n => some n
  | _, .int i => some (.ofInt i)
  | _, _ => none

def scalar : Decoder Scalar
  | _, .bool b => some (.bool b)
  | _, .string s => some (.text s)
  | limit, j => (number limit j).map .number

/-- Null means that there is nothing. -/
def nullable (decode : Decoder α) : Decoder (Option α)
  | _, .null => some none
  | limit, j => (decode limit j).map some

def list (decode : Decoder α) : Decoder (List α)
  | limit + 1, .array items => items.mapM (decode limit)
  | _, _ => none

/-- A dictionary: a repeated key keeps its first place and takes its last value. -/
def dict (decode : Decoder α) : Decoder (Dict α)
  | limit + 1, .object members =>
    (members.mapM fun m => (decode limit m.2).map (m.1, ·)).map Dict.ofList
  | _, _ => none

/-- A dictionary of scalars in which keys with null are left out. -/
def scalars : Decoder (Dict Scalar)
  | _, .null => some .empty
  | limit, j => (dict (nullable scalar) limit j).map (Dict.filterMap id)

/-- One of several values, by name. The name may also be the only key of an object with null. -/
def named (all : List α) (name : α → String) : Decoder α
  | _, .string s => all.find? fun a => name a = s
  | _ + 1, .object [(s, .null)] => all.find? fun a => name a = s
  | _, _ => none

/-- The values of the fields of a record, in the order of their names, where they are given. A
named field may occur once. -/
def slots? (names : List String) : Json → Option (List (Option Json))
  | .array items =>
    if items.length ≤ names.length then
      some (items.map some ++ List.replicate (names.length - items.length) none)
    else none
  | .object members => names.mapM fun name =>
    match members.filter fun member => member.1 = name with
    | [] => some none
    | [(_, value)] => some (some value)
    | _ => none
  | _ => none

def required (decode : Decoder α) (limit : Nat) (slot : Option Json) : Option α :=
  slot.bind (decode limit)

def optional (default : α) (decode : Decoder α) (limit : Nat) (slot : Option Json) : Option α :=
  match slot with
  | none => some default
  | some j => decode limit j

def read? (decode : Decoder α) (text : String) : Option α :=
  (Json.parse? text).bind (decode nestingLimit)

end Decoder

end Pagewright
