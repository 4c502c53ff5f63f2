import Pagewright.Json.Basic
import Pagewright.Number.Text

/-!
Documents as text, compact or spread over lines. Both forms escape strings alike: quotation mark,
backslash and the controls below the space; everything else stands for itself.
-/

namespace Pagewright

namespace Json

def escapeChar (c : Char) : List Char :=
  if c = '"' then ['\\', '"']
  else if c = '\\' then ['\\', '\\']
  else if c = '\x08' then ['\\', 'b']
  else if c = '\x0c' then ['\\', 'f']
  else if c = '\n' then ['\\', 'n']
  else if c = '\r' then ['\\', 'r']
  else if c = '\t' then ['\\', 't']
  else if c.toNat < 0x20 then
    ['\\', 'u', '0', '0', Nat.digitChar (c.toNat / 16), Nat.digitChar (c.toNat % 16)]
  else [c]

def stringText (s : String) : String :=
  String.ofList ('"' :: s.toList.flatMap escapeChar ++ ['"'])

/-- A number; one that is not finite has no form of its own and is written as null. -/
def numberText (n : Number) : String :=
  if n.isFinite then n.finiteText Number.documentLayout else "null"

mutual

def compact : Json → String
  | .null => "null"
  | .bool b => if b then "true" else "false"
  | .int i => toString i
  | .number n => numberText n
  | .string s => stringText s
  | .array items => "[" ++ compactItems items ++ "]"
  | .object members => "\x7b" ++ compactMembers members ++ "\x7d"
  | .unusable => "null"

def compactItems : List Json → String
  | [] => ""
  | [item] => compact item
  | item :: rest => compact item ++ "," ++ compactItems rest

def compactMembers : List (String × Json) → String
  | [] => ""
  | [(key, value)] => stringText key ++ ":" ++ compact value
  | (key, value) :: rest => stringText key ++ ":" ++ compact value ++ "," ++ compactMembers rest

end

/-- A line break followed by the indentation of a nesting depth. -/
def breakLine (depth : Nat) : String := String.ofList ('\n' :: List.replicate (2 * depth) ' ')

mutual

/-- The text with every item and member on a line of its own, for a value at some depth. -/
def prettyAt (depth : Nat) : Json → String
  | .null => "null"
  | .bool b => if b then "true" else "false"
  | .int i => toString i
  | .number n => numberText n
  | .string s => stringText s
  | .array [] => "[]"
  | .array items => "[" ++ prettyItems (depth + 1) items ++ breakLine depth ++ "]"
  | .object [] => "\x7b\x7d"
  | .object members => "\x7b" ++ prettyMembers (depth + 1) members ++ breakLine depth ++ "\x7d"
  | .unusable => "null"

def prettyItems (depth : Nat) : List Json → String
  | [] => ""
  | [item] => breakLine depth ++ prettyAt depth item
  | item :: rest => breakLine depth ++ prettyAt depth item ++ "," ++ prettyItems depth rest

def prettyMembers (depth : Nat) : List (String × Json) → String
  | [] => ""
  | [(key, value)] => breakLine depth ++ stringText key ++ ": " ++ prettyAt depth value
  | (key, value) :: rest =>
    breakLine depth ++ stringText key ++ ": " ++ prettyAt depth value ++ "," ++
      prettyMembers depth rest

end

def pretty (j : Json) : String := prettyAt 0 j

end Json

end Pagewright
