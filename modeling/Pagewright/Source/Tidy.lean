import Pagewright.Source.Braces
import Pagewright.Text.Blank
import Pagewright.Text.Lines

/-!
The built-in formatter. It trims the end of every line, keeps one blank line where there were
any between others, drops blank lines at both ends, and refuses a source with unbalanced braces.
-/

namespace Pagewright

inductive FormatError where
  | malformed (line : Nat) (fault : BraceFault)
  | failed (message : String)
  /-- The formatter was not done after so many milliseconds. -/
  | timedOut (milliseconds : Nat)
deriving DecidableEq, Repr

/-- Thousandths without the zeros at their end, after a point, if anything is left. -/
def thousandthsText (n : Nat) : String :=
  let digits := [n / 100, n / 10 % 10, n % 10].map Nat.digitChar
  let kept := (digits.reverse.dropWhile fun c => c = '0').reverse
  if kept = [] then "" else String.ofList ('.' :: kept)

/-- A duration in the largest unit of which it holds at least one. -/
def durationText (milliseconds : Nat) : String :=
  if milliseconds = 0 then "0ns"
  else if milliseconds < 1000 then toString milliseconds ++ "ms"
  else toString (milliseconds / 1000) ++ thousandthsText (milliseconds % 1000) ++ "s"

def FormatError.message : FormatError → String
  | malformed line fault => "syntax error at line " ++ toString line ++ ": " ++ fault.message
  | failed message => "formatter failed: " ++ message
  | timedOut milliseconds => "formatter timed out after " ++ durationText milliseconds

/-- Keeps the lines that hold something, and one empty line where some were between them. The
flags tell whether a line has been kept, and whether an empty line has been passed since. -/
def settleLines (kept gap : Bool) : List (List Char) → List (List Char)
  | [] => []
  | [] :: rest => settleLines kept kept rest
  | line :: rest => (if gap then [[]] else []) ++ line :: settleLines true false rest

/-- A text of lines, each with its ending. -/
def unlines (lines : List (List Char)) : List Char := lines.flatMap fun line => line ++ ['\n']

/-- The source with its blanks settled. -/
def settleBlanks (source : List Char) : List Char :=
  unlines (settleLines false false ((lines source).map trimEnd))

def tidy (source : List Char) : Except FormatError (List Char) :=
  match checkBraces source with
  | .ok () => .ok (settleBlanks source)
  | .error (line, fault) => .error (.malformed line fault)

end Pagewright
