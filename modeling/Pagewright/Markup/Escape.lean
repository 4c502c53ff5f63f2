import Pagewright.Text.Replace

/-!
Escaping text for markup. In attribute values only the closing quotation mark and line breaks are
replaced. In running text braces and grave accents become string expressions, and so does a slash
that would open a comment; angle brackets and quotation marks become entities.
-/

namespace Pagewright

def attributeChar (c : Char) : String :=
  if c = '"' then "&quot;" else if c = '\n' then "&#10;" else c.toString

/-- A text as a double-quoted attribute value, without the quotation marks. -/
def escapeAttribute (s : String) : String := replaceChars attributeChar s

/-- One character of running text, given the character after it. -/
def textChar (c : Char) (next : Option Char) : String :=
  if c = '{' then "\x7b'\x7b'\x7d"
  else if c = '}' then "\x7b'\x7d'\x7d"
  else if c = '<' then "&lt;"
  else if c = '>' then "&gt;"
  else if c = '"' then "&quot;"
  else if c = '\'' then "&apos;"
  else if c = '\x60' then "\x7b'\x60'\x7d"
  else if c = '/' && (next = some '/' || next = some '*') then "\x7b'/'\x7d"
  else c.toString

def escapeTextChars : List Char → List Char
  | [] => []
  | c :: rest => (textChar c rest.head?).toList ++ escapeTextChars rest

def escapeText (s : String) : String := String.ofList (escapeTextChars s.toList)

end Pagewright
