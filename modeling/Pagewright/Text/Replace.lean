/-! Replacing characters and words in a text. -/

namespace Pagewright

/-- Writes every character through a table that gives its replacement text. -/
def replaceChars (table : Char → String) (s : String) : String :=
  String.ofList (s.toList.flatMap fun c => (table c).toList)

/-- Replaces the first occurrence of a nonempty word, if it occurs at all. -/
def replaceFirst (word replacement : List Char) : List Char → List Char
  | [] => []
  | c :: rest =>
    if word.isPrefixOf (c :: rest) then replacement ++ (c :: rest).drop word.length
    else c :: replaceFirst word replacement rest

end Pagewright
