import Pagewright.Json.Reader
import Pagewright.Number.Text
import Pagewright.Proofs.Json.Balance
import Pagewright.Text.Blank

/-!
Object literals as JavaScript reads them: names, strings in quotation marks of either kind, decimal
numerals, lists and objects, with gaps between them. Comments, computed keys, and characters or
numbers in notations that no entry is written in are refused.
-/

namespace Pagewright

/-- What a literal denotes. A numeral stands as it is written. -/
inductive Literal where
  | null
  | bool (value : Bool)
  | numeral (text : String)
  | string (value : String)
  | array (items : List Literal)
  | object (members : List (String × Literal))

namespace Literal

def isLineEnd (c : Char) : Bool := c = '\n' || c = '\r' || c = '\u2028' || c = '\u2029'

/-- Whether a character may stand between tokens: a byte order mark may, and every blank other than
the next line control. -/
def isGap (c : Char) : Bool := (isBlank c && c ≠ '\u0085') || c = '\ufeff'

def skipGaps (cs : List Char) : List Char := cs.dropWhile isGap

/-- The characters of names. Among those of ASCII the choice is fixed; beyond, it follows the
version of Unicode, but no gap belongs to a name. -/
structure Alphabet where
  starts : Char → Bool
  continues : Char → Bool
  starts_ascii : ∀ c, c.toNat < 0x80 → starts c = (c.isAlpha || c = '$' || c = '_')
  continues_ascii : ∀ c, c.toNat < 0x80 → continues c = (c.isAlphanum || c = '$' || c = '_')
  continues_of_starts : ∀ c, starts c → continues c
  not_continues_of_isGap : ∀ c, isGap c → ¬ continues c

/-- Where a reader stands in a string. -/
inductive StringMode where
  | plain
  /-- Right after a backslash. -/
  | escape
  /-- In the hexadecimal digits of an escape, of which some are missing. -/
  | digits (missing value : Nat)
  /-- Right after an escaped zero, which no digit may follow. -/
  | zero
  /-- Right after an escaped carriage return, which takes a line feed with it. -/
  | carriage
deriving DecidableEq, Repr

namespace StringMode

/-- Whether the string may end here. -/
def mayEnd : StringMode → Bool
  | plain | zero | carriage => true
  | escape | digits _ _ => false

def plainStep? (c : Char) : Option (StringMode × List Char) :=
  if c = '\n' || c = '\r' then none
  else if c = '\\' then some (escape, [])
  else some (plain, [c])

/-- The character that an escape names by a letter or a mark. -/
def namedChar (c : Char) : Char :=
  if c = 'n' then '\n'
  else if c = 'r' then '\r'
  else if c = 't' then '\t'
  else if c = 'b' then '\x08'
  else if c = 'f' then '\x0c'
  else if c = 'v' then '\x0b'
  else c

/-- The character after a backslash. A line that ends there goes on. -/
def escapeStep? (c : Char) : Option (StringMode × List Char) :=
  if c = 'x' then some (digits 2 0, [])
  else if c = 'u' then some (digits 4 0, [])
  else if c = '0' then some (zero, ['\x00'])
  else if c.isDigit then none
  else if c = '\r' then some (carriage, [])
  else if isLineEnd c then some (plain, [])
  else some (plain, [namedChar c])

/-- A further digit of an escape. The last one completes a character, unless that is half a
surrogate pair. -/
def digitStep? (missing value : Nat) (c : Char) : Option (StringMode × List Char) :=
  (Json.hexValue? c).bind fun digit =>
    let value := 16 * value + digit
    if 1 < missing then some (digits (missing - 1) value, [])
    else if 0xD800 ≤ value && value < 0xE000 then none
    else some (plain, [Char.ofNat value])

/-- Reads a character of a string: the mode after it, and what the string gains by it. -/
def step? (mode : StringMode) (c : Char) : Option (StringMode × List Char) :=
  match mode with
  | plain => plainStep? c
  | escape => escapeStep? c
  | digits missing value => digitStep? missing value c
  | zero => if c.isDigit then none else plainStep? c
  | carriage => if c = '\n' then some (plain, []) else plainStep? c

end StringMode

/-- The string up to its closing quotation mark, and the text after that. -/
def readString? (mark : Char) : StringMode → List Char → Option (List Char × List Char)
  | _, [] => none
  | mode, c :: rest =>
    if mode.mayEnd && c = mark then some ([], rest)
    else (mode.step? c).bind fun (next, piece) =>
      (readString? mark next rest).map fun (text, rest) => (piece ++ text, rest)

def isNumeralPart (c : Char) : Bool := isNumeralChar c || c = 'E'

/-- A numeral, which goes as far as its characters do. -/
def readNumeral? (cs : List Char) : Option (List Char × List Char) :=
  let token := cs.takeWhile isNumeralPart
  if (Json.readNumeral? token).map Prod.snd = some [] then
    some (token, cs.dropWhile isNumeralPart)
  else none

/-- The layout of numbers that become texts: with an exponent from `1e21` on and below `1e-6`. -/
def numberLayout : Number.Layout := ⟨false, some (-6, 20), false⟩

/-- The key that a numeral stands for: its number as a text. -/
def numeralKey (token : List Char) : List Char :=
  match Number.ofText? token with
  | some n => if n.isFinite then (n.finiteText numberLayout).toList else "Infinity".toList
  | none => []

/-- The member that sets the prototype of an object instead of being a member. -/
def prototypeKey : String := "__proto__"

variable (a : Alphabet)

/-- A key, and the text after it: a string, a numeral, or a name. -/
def readKey? : List Char → Option (List Char × List Char)
  | [] => none
  | c :: rest =>
    if c = '"' || c = '\'' then readString? c .plain rest
    else if c.isDigit then
      (readNumeral? (c :: rest)).map fun (token, rest) => (numeralKey token, rest)
    else if a.starts c then some (c :: rest.takeWhile a.continues, rest.dropWhile a.continues)
    else none

mutual

/-- A value and the text after it. Every step takes at least one character, so a fuel of the
length of the text is enough. -/
def readValue? : Nat → List Char → Option (Literal × List Char)
  | 0, _ => none
  | fuel + 1, cs =>
    match skipGaps cs with
    | 'n' :: 'u' :: 'l' :: 'l' :: rest => some (.null, rest)
    | 't' :: 'r' :: 'u' :: 'e' :: rest => some (.bool true, rest)
    | 'f' :: 'a' :: 'l' :: 's' :: 'e' :: rest => some (.bool false, rest)
    | '"' :: rest =>
      (readString? '"' .plain rest).map fun (text, rest) => (.string (String.ofList text), rest)
    | '\'' :: rest =>
      (readString? '\'' .plain rest).map fun (text, rest) => (.string (String.ofList text), rest)
    | '[' :: rest => (readItems? fuel rest).map fun (items, rest) => (.array items, rest)
    | '{' :: rest => (readMembers? fuel rest).map fun (members, rest) => (.object members, rest)
    | rest =>
      (readNumeral? rest).map fun (token, rest) => (.numeral (String.ofList token), rest)

/-- The items of a list up to its end. A comma may stand behind the last one. -/
def readItems? : Nat → List Char → Option (List Literal × List Char)
  | 0, _ => none
  | fuel + 1, cs =>
    match skipGaps cs with
    | ']' :: rest => some ([], rest)
    | cs => do
      let (item, rest) ← readValue? fuel cs
      match skipGaps rest with
      | ',' :: rest => do
        let (items, rest) ← readItems? fuel rest
        some (item :: items, rest)
      | ']' :: rest => some ([item], rest)
      | _ => none

/-- The members of an object up to its end. An object whose prototype is set is refused. -/
def readMembers? : Nat → List Char → Option (List (String × Literal) × List Char)
  | 0, _ => none
  | fuel + 1, cs =>
    match skipGaps cs with
    | '}' :: rest => some ([], rest)
    | cs => do
      let (key, rest) ← readKey? a cs
      if key = prototypeKey.toList then none
      match skipGaps rest with
      | ':' :: rest => do
        let (value, rest) ← readValue? fuel rest
        match skipGaps rest with
        | ',' :: rest => do
          let (members, rest) ← readMembers? fuel rest
          some ((String.ofList key, value) :: members, rest)
        | '}' :: rest => some ([(String.ofList key, value)], rest)
        | _ => none
      | _ => none

end

/-- The members of an object literal that is a whole text. -/
def readObject? (text : String) : Option (List (String × Literal)) :=
  match readValue? a (text.toList.length + 1) text.toList with
  | some (.object members, rest) => if skipGaps rest = [] then some members else none
  | _ => none

end Literal

end Pagewright
