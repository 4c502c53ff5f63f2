import Pagewright.Page.Metadata
import Pagewright.Proofs.Json.Balance

/-! The metadata object of a page is level if its keys are identifiers. -/

namespace Pagewright

/-- Letters and digits, the two marks that names may hold, and everything beyond ASCII. -/
def isIdentifierChar (c : Char) : Bool := c.isAlphanum || c = '$' || c = '_' || 0x80 ≤ c.toNat

def isHexDigit (c : Char) : Bool := c.isDigit || ('a' ≤ c && c ≤ 'f') || ('A' ≤ c && c ≤ 'F')

/-- A text of identifier characters and escaped code points. All identifiers are such texts; that
one does not begin with a digit is of no concern here. -/
inductive IsIdentifier : List Char → Prop
  | nil : IsIdentifier []
  | char {c : Char} {rest : List Char} (hc : isIdentifierChar c) (hrest : IsIdentifier rest) :
    IsIdentifier (c :: rest)
  | escape {digits rest : List Char} (hdigits : ∀ d ∈ digits, isHexDigit d)
    (hrest : IsIdentifier rest) : IsIdentifier (['\\', 'u'] ++ digits ++ rest)
  | braced {digits rest : List Char} (hdigits : ∀ d ∈ digits, isHexDigit d)
    (hrest : IsIdentifier rest) : IsIdentifier (['\\', 'u'] ++ ('{' :: digits ++ ['}']) ++ rest)

theorem isInert_of_isIdentifierChar {c : Char} (h : isIdentifierChar c) : isInert c := by
  have hne (d : Char) (hd : isIdentifierChar d = false) : c ≠ d := fun e => by
    rw [e, hd] at h
    cases h
  simp [isInert, hne '"' rfl, hne '\'' rfl, hne '\x60' rfl, hne '/' rfl, hne '{' rfl, hne '}' rfl]

theorem isInert_of_isHexDigit {c : Char} (h : isHexDigit c) : isInert c := by
  have hne (d : Char) (hd : isHexDigit d = false) : c ≠ d := fun e => by
    rw [e, hd] at h
    cases h
  simp [isInert, hne '"' rfl, hne '\'' rfl, hne '\x60' rfl, hne '/' rfl, hne '{' rfl, hne '}' rfl]

theorem IsIdentifier.level {text : List Char} (h : IsIdentifier text) : Level text := by
  have hmark : Level ['\\', 'u'] := rfl
  have hhex {digits : List Char} (hdigits : ∀ d ∈ digits, isHexDigit d) : Level digits :=
    Level.of_inert fun d hd => isInert_of_isHexDigit (hdigits d hd)
  induction h with
  | nil => exact Level.nil
  | @char c rest hc hrest ih =>
    have hfirst : Level [c] := Level.of_inert (by simpa using isInert_of_isIdentifierChar hc)
    exact hfirst.append ih
  | escape hdigits hrest ih => exact (hmark.append (hhex hdigits)).append ih
  | braced hdigits hrest ih => exact (hmark.append (hhex hdigits).braces).append ih

private theorem literalChar_inside (c : Char) : Inside '\'' (literalChar c).toList := by
  unfold literalChar
  split
  · rfl
  split
  · rfl
  split
  · rfl
  · next hbackslash hmark hbreak =>
    rw [Char.toString, String.toList_singleton]
    exact Inside.char hmark hbackslash hbreak

theorem quoteSingle_level (s : String) : Level (quoteSingle s).toList := by
  have hinside := Inside.flatMap literalChar_inside s.toList
  have htext : (quoteSingle s).toList =
      '\'' :: s.toList.flatMap (fun c => (literalChar c).toList) ++ ['\''] := by
    simp [quoteSingle, replaceChars]
  rw [htext]
  exact hinside.level (.inr rfl)

theorem MetaValue.literal_level (value : MetaValue) : Level value.literal.toList := by
  unfold MetaValue.literal
  split
  · exact Json.compact_level _
  · exact quoteSingle_level _
  · exact quoteSingle_level _
  · exact quoteSingle_level _
  · exact Json.compact_level _
  · exact quoteSingle_level _

namespace Page

variable {p : Page}

/-- The metadata of a page, if it has any, has identifiers as keys. -/
def HasIdentifierKeys (p : Page) : Prop :=
  ∀ metadata, p.metadata = some metadata → ∀ entry ∈ metadata.entries, IsIdentifier entry.1.toList

private theorem entry_level {key : String} (hkey : Level key.toList) (value : MetaValue) :
    Level ("  " ++ key ++ ": " ++ value.literal ++ ",\n").toList := by
  have hindent : Level "  ".toList := by decide
  have hcolon : Level ": ".toList := by decide
  have hcomma : Level ",\n".toList := by decide
  simp only [String.toList_append]
  exact (((hindent.append hkey).append hcolon).append value.literal_level).append hcomma

theorem metadataSource_level (h : p.HasIdentifierKeys) : Level p.metadataSource.toList := by
  have hkeys : ∀ entry ∈ p.metadataEntries, Level entry.1.toList := by
    have htitle : Level "title".toList := by decide
    unfold metadataEntries
    split
    · intro entry hm
      rw [List.mem_singleton.mp hm]
      exact htitle
    · next metadata hmeta =>
      exact fun entry hm => (h metadata hmeta entry hm).level
  have hopen : Passes 0 "export const metadata: Metadata = \x7b\n".toList 1 := by decide
  have hclose : Passes 1 "\x7d;".toList 0 := by decide
  unfold metadataSource
  rw [String.toList_append, String.toList_append, String.toList_join, List.flatMap_map]
  refine (hopen.append (Level.passes ?_ 1)).append hclose
  exact Level.flatMap fun entry hm => entry_level (hkeys entry hm) entry.2

end Page

end Pagewright
