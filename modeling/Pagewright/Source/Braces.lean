/-!
The brace check of generated sources. A source is read character by character; braces count only
in code, not in string literals and comments. Strings in single or double quotation marks also
end at the end of the line.
-/

namespace Pagewright

/-- Where a reader stands in a source. -/
inductive Mode where
  | code
  /-- In code, right after a slash. -/
  | slash
  | quoted (mark : Char)
  /-- In a string, right after a backslash. -/
  | escaped (mark : Char)
  | lineComment
  | blockComment
  /-- In a block comment, right after a star. -/
  | star
deriving DecidableEq, Repr

inductive BraceFault where
  | unexpectedClose
  | unclosedOpen
deriving DecidableEq, Repr

def BraceFault.message : BraceFault → String
  | unexpectedClose => "unexpected '\x7d'"
  | unclosedOpen => "unclosed '\x7b'"

/-- The state of the check: the mode, the current line, and the lines of the open braces from the
innermost out. -/
structure BraceScan where
  mode : Mode
  line : Nat
  opened : List Nat
deriving DecidableEq, Repr

namespace BraceScan

def start : BraceScan := ⟨.code, 1, []⟩

/-- The mode after a character of code, braces aside. -/
def codeMode (c : Char) : Mode :=
  if c = '"' || c = '\'' || c = '\x60' then .quoted c
  else if c = '/' then .slash
  else .code

/-- Reads a character of code. A fault carries the line of the brace. -/
def readCode (s : BraceScan) (c : Char) : Except (Nat × BraceFault) BraceScan :=
  if c = '{' then .ok { s with mode := .code, opened := s.line :: s.opened }
  else if c = '}' then
    match s.opened with
    | [] => .error (s.line, .unexpectedClose)
    | _ :: opened => .ok { s with mode := .code, opened := opened }
  else .ok { s with mode := codeMode c }

/-- Reads a character, once the line is counted. -/
def readChar (s : BraceScan) (c : Char) : Except (Nat × BraceFault) BraceScan :=
  match s.mode with
  | .code => s.readCode c
  | .slash =>
    if c = '/' then .ok { s with mode := .lineComment }
    else if c = '*' then .ok { s with mode := .blockComment }
    else s.readCode c
  | .quoted mark =>
    if c = '\\' then .ok { s with mode := .escaped mark }
    else if c = mark || (c = '\n' && mark ≠ '\x60') then .ok { s with mode := .code }
    else .ok s
  | .escaped mark => .ok { s with mode := .quoted mark }
  | .lineComment => .ok (if c = '\n' then { s with mode := .code } else s)
  | .blockComment => .ok (if c = '*' then { s with mode := .star } else s)
  | .star =>
    .ok { s with mode := if c = '/' then .code else if c = '*' then .star else .blockComment }

def step (s : BraceScan) (c : Char) : Except (Nat × BraceFault) BraceScan :=
  (if c = '\n' then { s with line := s.line + 1 } else s).readChar c

def run (s : BraceScan) (source : List Char) : Except (Nat × BraceFault) BraceScan :=
  source.foldlM step s

/-- At the end no brace may be open. -/
def finish (s : BraceScan) : Except (Nat × BraceFault) Unit :=
  match s.opened with
  | [] => .ok ()
  | line :: _ => .error (line, .unclosedOpen)

end BraceScan

/-- Checks that the braces of a source balance. A fault carries the line of the brace. -/
def checkBraces (source : List Char) : Except (Nat × BraceFault) Unit :=
  (BraceScan.start.run source).bind BraceScan.finish

end Pagewright
