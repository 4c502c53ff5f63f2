import Pagewright.Page.Metadata
import Pagewright.Proofs.Literal.Documents

/-! The metadata of a page as an object literal. It denotes the entries of the page as long as the
keys stand for themselves, no text breaks its line by a carriage return, and no document in a list
names the prototype. -/

namespace Pagewright

open Literal

namespace MetaValue

/-- What a metadata value denotes: a list is a list, and everything else its printed form. -/
def asLiteral : MetaValue → Literal
  | .list items => .array (items.map .string)
  | .text s => .string s
  | .number n => .string n.plainText
  | .bool b => .string (if b then "true" else "false")
  | .other (.array items) => (Json.array items).asLiteral
  | .other j => .string j.compact

/-- Whether a metadata value is written without changing what it denotes. -/
def isPlain : MetaValue → Bool
  | .text s => '\r' ∉ s.toList
  | .other (.array items) => !(Json.array items).setsPrototype
  | _ => true

end MetaValue

section Values

variable (a : Alphabet)

private theorem return_notMem_plainText (n : Number) : '\r' ∉ n.plainText.toList := by
  unfold Number.plainText
  split
  · decide
  split
  · split <;> decide
  · intro h
    exact absurd (IsNumeral.finiteText Number.plainLayout n _ h) (by decide)

private theorem readValue?_quoteSingle (s : String) (fuel : Nat) (rest : List Char) :
    readValue? a (fuel + 1) ((quoteSingle s).toList ++ rest) =
      if '\r' ∈ s.toList then none else some (.string s, rest) := by
  have htext : (quoteSingle s).toList ++ rest =
      '\'' :: (s.toList.flatMap (fun c => (literalChar c).toList) ++ '\'' :: rest) := by
    simp [quoteSingle, replaceChars]
  rw [htext, readValue?, skipGaps_cons (by decide)]
  change (readString? '\'' .plain _).map _ = _
  rw [readString?_quoteSingle]
  split
  · rfl
  · rw [Option.map_some]
    dsimp only
    rw [String.ofList_toList]

private theorem asLiteral_strings (items : List String) :
    (Json.array (items.map .string)).asLiteral = .array (items.map .string) ∧
      (Json.array (items.map .string)).setsPrototype = false := by
  rw [Json.asLiteral, Json.setsPrototype]
  induction items with
  | nil => exact ⟨rfl, rfl⟩
  | cons s items ih =>
    obtain ⟨hliteral, hprototype⟩ := ih
    refine ⟨congrArg Literal.array ?_, hprototype⟩
    exact congrArg (Literal.string s :: ·) (Literal.array.inj hliteral)

/-- The literal of a metadata value in front of a comma. -/
theorem readValue?_literal (value : MetaValue) (fuel : Nat)
    (hfuel : value.literal.toList.length < fuel) (rest : List Char) :
    readValue? a fuel (value.literal.toList ++ ',' :: rest) =
      if value.isPlain then some (value.asLiteral, ',' :: rest) else none := by
  have hquoted (s : String) (hs : '\r' ∉ s.toList) :
      readValue? a fuel ((quoteSingle s).toList ++ ',' :: rest) =
        some (.string s, ',' :: rest) := by
    obtain ⟨fuel, rfl⟩ := Nat.exists_eq_add_one_of_ne_zero (Nat.ne_zero_of_lt hfuel)
    rw [readValue?_quoteSingle, if_neg hs]
  have hcompact (j : Json) := hquoted j.compact (Json.lineEnd_notMem_compact (.inr rfl) j)
  cases value with
  | list items =>
    obtain ⟨hliteral, hprototype⟩ := asLiteral_strings items
    have hread := readsAs a (.array (items.map .string)) fuel ',' rest (Nat.le_of_lt hfuel)
      (by decide)
    rw [hliteral, hprototype] at hread
    exact hread
  | text s =>
    obtain ⟨fuel, rfl⟩ := Nat.exists_eq_add_one_of_ne_zero (Nat.ne_zero_of_lt hfuel)
    rw [MetaValue.literal, readValue?_quoteSingle, MetaValue.isPlain]
    by_cases hreturn : '\r' ∈ s.toList <;> simp [hreturn, MetaValue.asLiteral]
  | number n => exact hquoted n.plainText (return_notMem_plainText n)
  | bool b => cases b <;> exact hquoted _ (by decide)
  | other j =>
    cases j with
    | array items =>
      have hread := readsAs a (.array items) fuel ',' rest (Nat.le_of_lt hfuel) (by decide)
      rw [MetaValue.literal, hread, MetaValue.isPlain, MetaValue.asLiteral]
      cases (Json.array items).setsPrototype <;> rfl
    | null | bool | int | number | string | object | unusable => exact hcompact _

end Values

section Entries

variable {a : Alphabet}

/-- The text of entries, each on a line of its own. -/
private def entriesText (entries : List (String × MetaValue)) : List Char :=
  entries.flatMap fun (key, value) => ("  " ++ key ++ ": " ++ value.literal ++ ",\n").toList

private theorem entriesText_cons (key : String) (value : MetaValue)
    (entries : List (String × MetaValue)) : entriesText ((key, value) :: entries) =
      ' ' :: ' ' :: (key.toList ++ ':' :: ' ' :: (value.literal.toList ++ ',' :: '\n' ::
        entriesText entries)) := by
  simp [entriesText]

private theorem readValue?_gap {c : Char} (h : isGap c) (fuel : Nat) (cs : List Char) :
    readValue? a fuel (c :: cs) = readValue? a fuel cs := by
  cases fuel with
  | zero => rfl
  | succ fuel => rw [readValue?, readValue?, skipGaps_cons_of_isGap h]

private theorem readMembers?_gap {c : Char} (h : isGap c) (fuel : Nat) (cs : List Char) :
    readMembers? a fuel (c :: cs) = readMembers? a fuel cs := by
  cases fuel with
  | zero => rfl
  | succ fuel => rw [readMembers?, readMembers?, skipGaps_cons_of_isGap h]

/-- An entry whose key is read as itself. -/
private theorem readMembers?_entry {key : String}
    (hkey : a.IsName key.toList ∨ IsNumeralKey key.toList) (value : MetaValue) (fuel : Nat)
    (hfuel : value.literal.toList.length < fuel) (rest : List Char) :
    readMembers? a (fuel + 1) (' ' :: ' ' :: (key.toList ++ ':' :: ' ' ::
        (value.literal.toList ++ ',' :: '\n' :: rest))) =
      if key ≠ prototypeKey ∧ value.isPlain then
        (readMembers? a fuel rest).map fun (members, rest) =>
          ((key, value.asLiteral) :: members, rest)
      else none := by
  have hspace : isGap ' ' := by decide
  have hread := readKey?_self hkey (' ' :: (value.literal.toList ++ ',' :: '\n' :: rest))
  rw [← skipGaps_cons_of_isGap hspace, ← skipGaps_cons_of_isGap hspace] at hread
  rw [readMembers?_key hread, readValue?_gap hspace, readValue?_literal a value fuel hfuel,
    String.ofList_toList]
  by_cases hprototype : key = prototypeKey
  · rw [if_pos (congrArg String.toList hprototype), if_neg fun h => h.1 hprototype]
  rw [if_neg fun h => hprototype (String.toList_inj.mp h)]
  cases value.isPlain
  · simp
  · rw [if_pos rfl, if_pos ⟨hprototype, rfl⟩, Option.bind_some]
    dsimp only
    rw [readFurther?_comma, readMembers?_gap (by decide)]

/-- Entries with plain keys and plain values are read as what they denote. -/
private theorem readMembers?_entries {entries : List (String × MetaValue)}
    (h : ∀ entry ∈ entries, a.IsPlainKey entry.1 ∧ entry.2.isPlain) (fuel : Nat)
    (hfuel : (entriesText entries).length < fuel) (rest : List Char) :
    readMembers? a fuel (entriesText entries ++ '}' :: rest) =
      some (entries.map fun (key, value) => (key, value.asLiteral), rest) := by
  induction entries generalizing fuel with
  | nil =>
    obtain ⟨fuel, rfl⟩ := Nat.exists_eq_add_one_of_ne_zero (Nat.ne_zero_of_lt hfuel)
    rfl
  | cons entry entries ih =>
    obtain ⟨key, value⟩ := entry
    obtain ⟨fuel, rfl⟩ := Nat.exists_eq_add_one_of_ne_zero (Nat.ne_zero_of_lt hfuel)
    obtain ⟨⟨⟨hprototype, hkey⟩, hvalue⟩, hentries⟩ := List.forall_mem_cons.mp h
    rw [entriesText_cons] at hfuel ⊢
    simp only [List.length_cons, List.length_append] at hfuel
    have hmore := ih hentries fuel (by omega)
    have hentry := readMembers?_entry hkey value fuel (by omega) (entriesText entries ++ '}' :: rest)
    rw [if_pos ⟨hprototype, hvalue⟩, hmore] at hentry
    simpa using hentry

/-- Entries that are read as what they denote have plain keys and plain values. -/
private theorem plain_of_readMembers? {entries : List (String × MetaValue)} {fuel : Nat}
    (hfuel : (entriesText entries).length < fuel) {rest after : List Char}
    (h : readMembers? a fuel (entriesText entries ++ '}' :: rest) =
      some (entries.map fun (key, value) => (key, value.asLiteral), after)) :
    ∀ entry ∈ entries, a.IsPlainKey entry.1 ∧ entry.2.isPlain := by
  induction entries generalizing fuel with
  | nil => exact nofun
  | cons entry entries ih =>
    obtain ⟨key, value⟩ := entry
    obtain ⟨fuel, rfl⟩ := Nat.exists_eq_add_one_of_ne_zero (Nat.ne_zero_of_lt hfuel)
    rw [entriesText_cons] at hfuel h
    simp only [List.length_cons, List.length_append] at hfuel
    simp only [List.cons_append, List.append_assoc] at h
    have hspace : isGap ' ' := by decide
    obtain ⟨_, hread⟩ := exists_readKey? h
    rw [skipGaps_cons_of_isGap hspace, skipGaps_cons_of_isGap hspace] at hread
    have hkey := isPlain_of_readKey? hread
    rw [readMembers?_entry hkey value fuel (by omega)] at h
    split at h
    · next hplain =>
      obtain ⟨⟨members, _⟩, hmore, hlist⟩ := Option.map_eq_some_iff.mp h
      obtain ⟨hmembers, rfl⟩ := Prod.mk.inj hlist
      rw [(List.cons.inj hmembers).2] at hmore
      exact List.forall_mem_cons.mpr ⟨⟨⟨hplain.1, hkey⟩, hplain.2⟩, ih (by omega) hmore⟩
    · cases h

end Entries

namespace Page

/-- What the metadata of a page denotes: its entries in order, or its name as the title. -/
def metadataMeaning (p : Page) : List (String × Literal) :=
  match p.metadata with
  | none => [("title", .string p.name)]
  | some metadata => metadata.entries.map fun (key, value) => (key, value.asLiteral)

/-- Whether the metadata object of a page, read as a literal, has what the metadata denotes. -/
def MetadataFaithful (a : Alphabet) (p : Page) : Prop :=
  ∃ literal, p.metadataSource = "export const metadata: Metadata = " ++ literal ++ ";" ∧
    readObject? a literal = some p.metadataMeaning

private theorem metadataSource_eq (p : Page) :
    p.metadataSource = "export const metadata: Metadata = " ++
      String.ofList ('{' :: '\n' :: (entriesText p.metadataEntries ++ ['}'])) ++ ";" := by
  have hentries : (String.join (p.metadataEntries.map fun (key, value) =>
      "  " ++ key ++ ": " ++ value.literal ++ ",\n")).toList = entriesText p.metadataEntries := by
    rw [String.toList_join, List.flatMap_map, entriesText]
  have hopen : "export const metadata: Metadata = \x7b\n".toList =
      "export const metadata: Metadata = ".toList ++ ['{', '\n'] := by decide
  have hclose : "\x7d;".toList = ['}'] ++ ";".toList := by decide
  apply String.toList_inj.mp
  unfold metadataSource
  simp only [String.toList_append, String.toList_ofList, hentries, hopen, hclose,
    List.append_assoc, List.cons_append, List.nil_append]

private theorem metadataFaithful_iff_readMembers? {a : Alphabet} {p : Page} :
    p.MetadataFaithful a ↔ ∃ rest,
      readMembers? a ((entriesText p.metadataEntries).length + 3)
          (entriesText p.metadataEntries ++ ['}']) =
        some (p.metadataEntries.map fun (key, value) => (key, value.asLiteral), rest) ∧
      skipGaps rest = [] := by
  have hmeaning : p.metadataMeaning =
      p.metadataEntries.map fun (key, value) => (key, value.asLiteral) := by
    unfold metadataMeaning metadataEntries
    cases p.metadata <;> rfl
  have hliteral (literal : String) :
      p.metadataSource = "export const metadata: Metadata = " ++ literal ++ ";" ↔
        literal = String.ofList ('{' :: '\n' :: (entriesText p.metadataEntries ++ ['}'])) := by
    rw [metadataSource_eq, String.append_left_inj, String.append_right_inj, eq_comm]
  have hbreak : isGap '\n' := by decide
  simp only [MetadataFaithful, hliteral, exists_eq_left, readObject?_eq_some_iff, hmeaning,
    readMembers?_gap hbreak, List.length_cons, List.length_append, List.length_nil, Nat.add_assoc]

theorem plain_of_metadataFaithful {a : Alphabet} {p : Page} (h : p.MetadataFaithful a) :
    ∀ entry ∈ p.metadataEntries, a.IsPlainKey entry.1 ∧ entry.2.isPlain := by
  obtain ⟨rest, hread, -⟩ := metadataFaithful_iff_readMembers?.mp h
  exact plain_of_readMembers? (by omega) hread

theorem metadataFaithful_of_plain {a : Alphabet} {p : Page}
    (h : ∀ entry ∈ p.metadataEntries, a.IsPlainKey entry.1 ∧ entry.2.isPlain) :
    p.MetadataFaithful a :=
  metadataFaithful_iff_readMembers?.mpr ⟨[], readMembers?_entries h _ (by omega) [], rfl⟩

/-- The metadata object denotes the metadata of the page, unless a key does not stand for itself,
a text breaks its line by a carriage return, or a document in a list names the prototype. -/
theorem metadata_faithful_iff (a : Alphabet) (p : Page) :
    p.MetadataFaithful a ↔
      ∀ entry ∈ p.metadataEntries, a.IsPlainKey entry.1 ∧ entry.2.isPlain :=
  ⟨plain_of_metadataFaithful, metadataFaithful_of_plain⟩

example : (Page.bare "p1" "It's \\ \n" "home").MetadataFaithful default :=
  metadataFaithful_of_plain fun _ hm => by
    rw [List.mem_singleton.mp hm]
    have hrest : "itle".toList.all (default : Alphabet).continues := by decide
    exact ⟨⟨by decide, .inl ⟨'t', _, rfl, rfl, List.all_eq_true.mp hrest⟩⟩, by decide⟩

/-- A carriage return in the name of a page ends the line inside its title. -/
theorem return_breaks_metadata :
    ¬ ∃ a, (Page.bare "p1" "a\rb" "home").MetadataFaithful a := by
  rintro ⟨a, h⟩
  have hplain := plain_of_metadataFaithful h ("title", .text "a\rb") (List.mem_singleton.mpr rfl)
  exact absurd hplain.2 (by decide)

end Page

end Pagewright
