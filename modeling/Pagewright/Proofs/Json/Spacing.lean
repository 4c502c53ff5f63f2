import Pagewright.Proofs.Json.Balance
import Pagewright.Proofs.Json.Leaves
import Pagewright.Text.Blank
import Pagewright.Text.Replace

/-! Documents spread over lines: they differ from the compact ones only in blanks between strings,
and writing more indentation after every line break gives the document one level deeper. -/

namespace Pagewright

theorem replaceChars_append (table : Char → String) (a b : String) :
    replaceChars table (a ++ b) = replaceChars table a ++ replaceChars table b := by
  simp [replaceChars]

theorem replaceChars_eq_self {table : Char → String} {s : String}
    (h : ∀ c ∈ s.toList, table c = c.toString) : replaceChars table s = s := by
  have hchars : s.toList.map (fun c => (table c).toList) = s.toList.map fun c => [c] :=
    List.map_congr_left fun c hc => by rw [h c hc]; simp
  rw [replaceChars, List.flatMap_def, hchars, ← List.flatMap_def]
  simp

namespace Json

/-- Where a reader of a document stands: outside of strings, in one, or in one right after a
backslash. -/
inductive Quoting where
  | outside
  | inside
  | escaped
deriving DecidableEq, Repr

def Quoting.next : Quoting → Char → Quoting
  | outside, c => if c = '"' then inside else outside
  | inside, c => if c = '"' then outside else if c = '\\' then escaped else inside
  | escaped, _ => inside

/-- Deletes the blanks of a document that lie outside of its strings. -/
def squeeze : Quoting → List Char → List Char
  | _, [] => []
  | q, c :: rest =>
    if q = .outside && isBlank c then squeeze q rest else c :: squeeze (q.next c) rest

def squeezed (text : String) : String := String.ofList (squeeze .outside text.toList)

example : squeezed "[ \"a, \\\" b\" ,\n  1]" = "[\"a, \\\" b\",1]" := rfl

section Depth

/-- Every line break is followed by the indentation of one level more. -/
def indentBreak (c : Char) : String := if c = '\n' then "\n  " else c.toString

private theorem indent_line {s : String} (h : '\n' ∉ s.toList) : replaceChars indentBreak s = s :=
  replaceChars_eq_self fun c hc => if_neg fun heq : c = '\n' => h (heq ▸ hc)

private theorem indent_break (depth : Nat) :
    replaceChars indentBreak (breakLine depth) = breakLine (depth + 1) := by
  have hspaces (k : Nat) : (List.replicate k ' ').flatMap (fun c => (indentBreak c).toList) =
      List.replicate k ' ' := by
    induction k with
    | zero => rfl
    | succ k ih =>
      rw [List.replicate_succ, List.flatMap_cons, ih]
      rfl
  rw [replaceChars, breakLine, String.toList_ofList, List.flatMap_cons, hspaces, breakLine,
    Nat.mul_add, List.replicate_succ, List.replicate_succ]
  rfl

/-- A leaf stands in its line at any depth. -/
theorem prettyAt_leaf {j : Json} (h : j.IsLeaf) (depth : Nat) : prettyAt depth j = j.compact := by
  cases j with
  | array items => exact h.elim
  | object members => exact h.elim
  | _ => simp only [prettyAt, compact]

mutual

/-- Indenting the text is the same as writing the document one level deeper, since no string holds
a line break. -/
theorem indent_prettyAt (depth : Nat) (j : Json) :
    replaceChars indentBreak (prettyAt depth j) = prettyAt (depth + 1) j := by
  match j with
  | .array [] => simp only [prettyAt, indent_line (s := "[]") (by decide)]
  | .object [] => simp only [prettyAt, indent_line (s := "\x7b\x7d") (by decide)]
  | .array (item :: rest) =>
    simp only [prettyAt, replaceChars_append, indent_prettyItems, indent_break,
      indent_line (s := "[") (by decide), indent_line (s := "]") (by decide)]
  | .object (member :: rest) =>
    simp only [prettyAt, replaceChars_append, indent_prettyMembers, indent_break,
      indent_line (s := "\x7b") (by decide), indent_line (s := "\x7d") (by decide)]
  | .null | .bool _ | .int _ | .number _ | .string _ | .unusable =>
    rw [prettyAt_leaf (by trivial), prettyAt_leaf (by trivial)]
    exact indent_line (break_notMem_compact _)

theorem indent_prettyItems (depth : Nat) (items : List Json) :
    replaceChars indentBreak (prettyItems depth items) = prettyItems (depth + 1) items := by
  match items with
  | [] => rfl
  | [item] => simp only [prettyItems, replaceChars_append, indent_break, indent_prettyAt]
  | item :: next :: rest =>
    have hcomma := indent_line (s := ",") (by decide)
    simp only [prettyItems, replaceChars_append, indent_break, indent_prettyAt, hcomma,
      indent_prettyItems]

theorem indent_prettyMembers (depth : Nat) (members : List (String × Json)) :
    replaceChars indentBreak (prettyMembers depth members) = prettyMembers (depth + 1) members := by
  have hkey (key : String) : replaceChars indentBreak (stringText key) = stringText key :=
    indent_line (break_notMem_compact (.string key))
  have hcolon := indent_line (s := ": ") (by decide)
  match members with
  | [] => rfl
  | [(key, value)] =>
    simp only [prettyMembers, replaceChars_append, indent_break, hkey, hcolon, indent_prettyAt]
  | (key, value) :: next :: rest =>
    have hcomma := indent_line (s := ",") (by decide)
    simp only [prettyMembers, replaceChars_append, indent_break, hkey, hcolon, indent_prettyAt,
      hcomma, indent_prettyMembers]

end

end Depth

/-- A text that can stand in code, and that is another one but for blanks outside of strings. -/
structure Spreads (text compact : List Char) : Prop where
  level : Level text
  squeezes (rest : List Char) : squeeze .outside (text ++ rest) = compact ++ squeeze .outside rest

namespace Spreads

variable {a b x y : List Char}

theorem nil : Spreads [] [] := ⟨.nil, fun _ => rfl⟩

theorem append (ha : Spreads a x) (hb : Spreads b y) : Spreads (a ++ b) (x ++ y) :=
  ⟨ha.level.append hb.level, fun rest => by
    rw [List.append_assoc, ha.squeezes, hb.squeezes, List.append_assoc]⟩

theorem blanks (h : ∀ c ∈ a, isBlank c ∧ isInert c) : Spreads a [] := by
  refine ⟨Level.of_inert fun c hc => (h c hc).2, fun rest => ?_⟩
  induction a with
  | nil => rfl
  | cons c more ih =>
    obtain ⟨⟨hc, -⟩, hmore⟩ := List.forall_mem_cons.mp h
    rw [List.cons_append, squeeze, hc]
    exact ih hmore

/-- What has neither blanks nor quotation marks stays as it is. -/
private theorem squeeze_solid (h : ∀ c ∈ a, isBlank c = false ∧ c ≠ '"') (rest : List Char) :
    squeeze .outside (a ++ rest) = a ++ squeeze .outside rest := by
  induction a with
  | nil => rfl
  | cons c more ih =>
    obtain ⟨⟨hblank, hquote⟩, hmore⟩ := List.forall_mem_cons.mp h
    rw [List.cons_append, squeeze, hblank, Bool.and_false, Quoting.next, if_neg hquote, ih hmore]
    rfl

theorem solid (hlevel : Level a) (h : ∀ c ∈ a, isBlank c = false ∧ c ≠ '"') : Spreads a a :=
  ⟨hlevel, squeeze_solid h⟩

theorem numeral (h : IsNumeral a) : Spreads a a := by
  refine .solid h.level fun c hc => ?_
  have hne (d : Char) (hd : isNumeralChar d = false) : c ≠ d := fun heq => by
    rw [heq.symm, h c hc] at hd
    cases hd
  refine ⟨Bool.eq_false_iff.mpr fun hblank => ?_, hne '"' rfl⟩
  have hall : c.isDigit || c = '-' || c = '+' || c = '.' || c = 'e' := h c hc
  simp only [Bool.or_eq_true, decide_eq_true_eq] at hall
  obtain (((hdigit | rfl) | rfl) | rfl) | rfl := hall
  · exact not_isBlank_of_isAlphanum (by simp [Char.isAlphanum, hdigit]) hblank
  all_goals revert hblank; decide

/-- Neither closing the string nor escaping what follows, characters leave it open. -/
private theorem squeeze_inside (h : ∀ c ∈ a, c ≠ '"' ∧ c ≠ '\\') (rest : List Char) :
    squeeze .inside (a ++ rest) = a ++ squeeze .inside rest := by
  induction a with
  | nil => rfl
  | cons c more ih =>
    obtain ⟨⟨hquote, hbackslash⟩, hmore⟩ := List.forall_mem_cons.mp h
    rw [List.cons_append, squeeze, Quoting.next, if_neg hquote, if_neg hbackslash, ih hmore]
    rfl

private theorem squeeze_escapeChar (c : Char) (rest : List Char) :
    squeeze .inside (escapeChar c ++ rest) = escapeChar c ++ squeeze .inside rest := by
  have hdigit : ∀ n < 16, Nat.digitChar n ≠ '"' ∧ Nat.digitChar n ≠ '\\' := by decide
  by_cases hnamed : c ∈ ['"', '\\', '\x08', '\x0c', '\n', '\r', '\t']
  · simp only [List.mem_cons, List.not_mem_nil, or_false] at hnamed
    rcases hnamed with rfl | rfl | rfl | rfl | rfl | rfl | rfl <;> rfl
  · simp only [List.mem_cons, List.not_mem_nil, or_false, not_or] at hnamed
    simp only [escapeChar, hnamed, if_false]
    split
    · next hcontrol =>
      have hdigits := squeeze_inside (a := ['0', '0', _, _]) (by
        simpa using ⟨hdigit (c.toNat / 16) (by omega), hdigit (c.toNat % 16) (by omega)⟩) rest
      exact congrArg (fun more => '\\' :: 'u' :: more) hdigits
    · exact squeeze_inside (by simpa using ⟨hnamed.1, hnamed.2.1⟩) rest

theorem string (s : String) : Spreads (stringText s).toList (stringText s).toList := by
  refine ⟨stringText_level s, fun rest => ?_⟩
  have hinside (chars more : List Char) :
      squeeze .inside (chars.flatMap escapeChar ++ more) =
        chars.flatMap escapeChar ++ squeeze .inside more := by
    induction chars with
    | nil => rfl
    | cons c chars ih =>
      rw [List.flatMap_cons, List.append_assoc, squeeze_escapeChar, ih, List.append_assoc]
  rw [stringText, String.toList_ofList, List.append_assoc]
  change '"' :: squeeze .inside (s.toList.flatMap escapeChar ++ '"' :: rest) = _
  rw [hinside, List.append_assoc]
  rfl

theorem braces (h : Spreads a x) : Spreads ('{' :: a ++ ['}']) ('{' :: x ++ ['}']) := by
  refine ⟨h.level.braces, fun rest => ?_⟩
  rw [List.append_assoc]
  change '{' :: squeeze .outside (a ++ '}' :: rest) = _
  rw [h.squeezes, List.append_assoc]
  rfl

theorem breakLine (depth : Nat) : Spreads (breakLine depth).toList [] := by
  refine .blanks fun c hc => ?_
  rw [Json.breakLine, String.toList_ofList] at hc
  rcases List.mem_cons.mp hc with rfl | hc
  · decide
  · rw [List.eq_of_mem_replicate hc]
    decide

theorem word : ∀ text ∈ ["", "null", "true", "false", "[", "]", ",", ":"],
    Spreads text.toList text.toList := by
  have hall : ∀ text ∈ ["", "null", "true", "false", "[", "]", ",", ":"],
      Level text.toList ∧ text.toList.all fun c => !isBlank c && c ≠ '"' := by decide
  intro text ht
  obtain ⟨hlevel, hchars⟩ := hall text ht
  exact solid hlevel (by simpa using hchars)

theorem compact (j : Json) : Spreads j.compact.toList j.compact.toList := by
  have hcomposes : Composes fun text => Spreads text text :=
    ⟨append, word, numeral, string, braces⟩
  exact hcomposes.compact j

mutual

theorem prettyAt (depth : Nat) (j : Json) : Spreads (prettyAt depth j).toList j.compact.toList := by
  match j with
  | .array [] => simpa [Json.prettyAt, Json.compact, compactItems] using compact (.array [])
  | .object [] => simpa [Json.prettyAt, Json.compact, compactMembers] using compact (.object [])
  | .array (item :: rest) =>
    have hitems := (prettyItems (depth + 1) (item :: rest)).append (breakLine depth)
    have h := ((word "[" (by decide)).append hitems).append (word "]" (by decide))
    simpa [Json.prettyAt, Json.compact] using h
  | .object (member :: rest) =>
    have h := ((prettyMembers (depth + 1) (member :: rest)).append (breakLine depth)).braces
    simpa [Json.prettyAt, Json.compact] using h
  | .null | .bool _ | .int _ | .number _ | .string _ | .unusable =>
    rw [prettyAt_leaf (by trivial)]
    exact compact _

theorem prettyItems (depth : Nat) (items : List Json) :
    Spreads (prettyItems depth items).toList (compactItems items).toList := by
  match items with
  | [] => exact nil
  | [item] =>
    have h := (breakLine depth).append (prettyAt depth item)
    simpa [Json.prettyItems, compactItems] using h
  | item :: next :: rest =>
    have hitem := ((breakLine depth).append (prettyAt depth item)).append (word "," (by decide))
    have h := hitem.append (prettyItems depth (next :: rest))
    simpa [Json.prettyItems, compactItems] using h

theorem prettyMembers (depth : Nat) (members : List (String × Json)) :
    Spreads (prettyMembers depth members).toList (compactMembers members).toList := by
  have hspace : Spreads [' '] [] := blanks (List.forall_mem_singleton.mpr ⟨rfl, rfl⟩)
  have hkey (key : String) := ((breakLine depth).append (string key)).append
    ((word ":" (by decide)).append hspace)
  match members with
  | [] => exact nil
  | [(key, value)] =>
    have h := (hkey key).append (prettyAt depth value)
    simpa [Json.prettyMembers, compactMembers] using h
  | (key, value) :: next :: rest =>
    have hmember := ((hkey key).append (prettyAt depth value)).append (word "," (by decide))
    have h := hmember.append (prettyMembers depth (next :: rest))
    simpa [Json.prettyMembers, compactMembers] using h

end

end Spreads

/-- Without the blanks outside of its strings a document spread over lines is the compact one. -/
theorem squeezed_prettyAt (depth : Nat) (j : Json) : squeezed (prettyAt depth j) = j.compact := by
  have h := (Spreads.prettyAt depth j).squeezes []
  rw [List.append_nil] at h
  rw [squeezed, h]
  simp [squeeze]

end Json

end Pagewright
