import Pagewright.Text.Hidden

/-!
Diagnostic quotation. Error messages quote recorded names so that every character that does not
show is spelled out: quotation marks and backslashes get a backslash, common controls have a
letter, and other characters that do not print appear as their code point in hexadecimal.
-/

namespace Pagewright

/-- One character between diagnostic quotation marks. -/
def quoteChar (c : Char) : String :=
  if c = '"' then "\\\""
  else if c = '\\' then "\\\\"
  else if c = '\n' then "\\n"
  else if c = '\r' then "\\r"
  else if c = '\t' then "\\t"
  else if c = '\x00' then "\\0"
  else if isHidden c then "\\u\x7b" ++ String.ofList (Nat.toDigits 16 c.toNat) ++ "\x7d"
  else c.toString

def quoted (s : String) : String :=
  "\"" ++ String.ofList (s.toList.flatMap fun c => (quoteChar c).toList) ++ "\""

/-- A name that may be missing, for a diagnostic. -/
def quotedOption : Option String → String
  | none => "None"
  | some s => "Some(" ++ quoted s ++ ")"

end Pagewright
