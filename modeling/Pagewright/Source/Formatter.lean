import Pagewright.Source.Tidy

/-! Formatters of generated sources, and the time limit that a formatter has to keep. -/

namespace Pagewright

/-- A formatter: how many milliseconds it takes, and what it makes of a source in the language of
a file extension. -/
structure Formatter where
  delay : Nat
  apply : String → String → Except FormatError String

/-- The built-in formatter, which takes no time. -/
def tidyFormatter : Formatter :=
  ⟨0, fun _ source => (tidy source.toList).map String.ofList⟩

/-- A formatter together with the limit in milliseconds within which it has to be done. -/
structure Formatting where
  formatter : Formatter
  limit : Option Nat

/-- The built-in formatter without a limit. -/
def Formatting.builtIn : Formatting := ⟨tidyFormatter, none⟩

/-- The longest time that anything is waited for: thirty years of 365 days, in milliseconds. -/
def longestWait : Nat := 946080000000

/-- Formats a source, unless the formatter misses its limit. A formatter that takes longer than
the longest wait is done when that is over. -/
def Formatting.format (f : Formatting) (extension source : String) : Except FormatError String :=
  match f.limit with
  | some limit =>
    if limit < min f.formatter.delay longestWait then .error (.timedOut limit)
    else f.formatter.apply extension source
  | none => f.formatter.apply extension source

end Pagewright
