import Pagewright.Proofs.Json.Decimals
import Pagewright.Proofs.Json.RoundTrip
import Pagewright.Proofs.Literal.Keys

/-! Documents in the place of literals. They are read as themselves, except that a member named
like the prototype is none. -/

namespace Pagewright

namespace Json

mutual

/-- What a document denotes as a literal. Numbers stand as documents write them. -/
def asLiteral : Json → Literal
  | .null | .unusable => .null
  | .bool b => .bool b
  | .int i => .numeral (toString i)
  | .number n => if n.isFinite then .numeral (n.finiteText Number.documentLayout) else .null
  | .string s => .string s
  | .array items => .array (itemLiterals items)
  | .object members => .object (memberLiterals members)

def itemLiterals : List Json → List Literal
  | [] => []
  | item :: rest => item.asLiteral :: itemLiterals rest

def memberLiterals : List (String × Json) → List (String × Literal)
  | [] => []
  | (key, value) :: rest => (key, value.asLiteral) :: memberLiterals rest

end

mutual

/-- Whether some object in a document has a member that would set its prototype. -/
def setsPrototype : Json → Bool
  | .array items => itemsSetPrototype items
  | .object members => membersSetPrototype members
  | _ => false

def itemsSetPrototype : List Json → Bool
  | [] => false
  | item :: rest => item.setsPrototype || itemsSetPrototype rest

def membersSetPrototype : List (String × Json) → Bool
  | [] => false
  | (key, value) :: rest =>
    key = Literal.prototypeKey || value.setsPrototype || membersSetPrototype rest

end

end Json

namespace Literal

open Json (compactItems compactMembers stringText itemLiterals memberLiterals itemsSetPrototype
  membersSetPrototype)

variable (a : Alphabet)

/-- Wherever the text of the document stands, it is read as the document, as long as that sets no
prototype. -/
def ReadsAs (j : Json) : Prop :=
  ∀ fuel stop rest, j.compact.toList.length ≤ fuel → ¬ isNumeralPart stop →
    readValue? a fuel (j.compact.toList ++ stop :: rest) =
      if j.setsPrototype then none else some (j.asLiteral, stop :: rest)

section Leaves

variable {text : List Char} {found : Json.Numeral}

private theorem numeral_head (hread : Json.readNumeral? text = some (found, []))
    (htext : IsNumeral text) : ∃ c cs, text = c :: cs ∧ isNumeralChar c := by
  cases text with
  | nil => cases hread
  | cons c cs => exact ⟨c, cs, rfl, htext c List.mem_cons_self⟩

/-- A numeral is read as it stands. -/
private theorem readValue?_numeral (hread : Json.readNumeral? text = some (found, []))
    (htext : IsNumeral text) {stop : Char} (hstop : ¬ isNumeralPart stop) (fuel : Nat)
    (rest : List Char) : readValue? a (fuel + 1) (text ++ stop :: rest) =
      some (.numeral (String.ofList text), stop :: rest) := by
  have hparts : ∀ c ∈ text, isNumeralPart c := fun c hc => by simp [isNumeralPart, htext c hc]
  have hwhole : readNumeral? text = some (text, []) := by
    unfold readNumeral?
    dsimp only
    rw [List.takeWhile_eq_self_iff.mpr hparts, List.dropWhile_eq_nil_iff.mpr hparts, hread]
    rfl
  obtain ⟨c, cs, rfl, hc⟩ := numeral_head hread htext
  have hne := Json.ne_of_isNumeralChar hc
  have hgap : ¬ isGap c := not_isGap_of_isNumeralPart (hparts c List.mem_cons_self)
  have hnumeral := readNumeral?_stop hstop (c :: cs) rest
  rw [List.cons_append] at hnumeral ⊢
  rw [readValue?, skipGaps_cons hgap]
  split
  · next h => exact absurd (List.cons.inj h).1 (hne 'n' rfl)
  · next h => exact absurd (List.cons.inj h).1 (hne 't' rfl)
  · next h => exact absurd (List.cons.inj h).1 (hne 'f' rfl)
  · next h => exact absurd (List.cons.inj h).1 (hne '"' rfl)
  · next h => exact absurd (List.cons.inj h).1 (hne '\'' rfl)
  · next h => exact absurd (List.cons.inj h).1 (hne '[' rfl)
  · next h => exact absurd (List.cons.inj h).1 (hne '{' rfl)
  · rw [hnumeral, hwhole]
    rfl

private theorem readString?_stringText (s : String) (rest : List Char) : ∃ cs,
    (stringText s).toList ++ rest = '"' :: cs ∧
      readString? '"' .plain cs = some (s.toList, rest) :=
  ⟨s.toList.flatMap Json.escapeChar ++ '"' :: rest, by simp [stringText],
    readString?_escaped s.toList rest⟩

end Leaves

/-- The text of a document begins neither with a gap nor with the end of a list. -/
private theorem compact_head (j : Json) :
    ∃ c cs, j.compact.toList = c :: cs ∧ ¬ isGap c ∧ c ≠ ']' := by
  have hnumeral {text : List Char} {found : Json.Numeral}
      (hread : Json.readNumeral? text = some (found, [])) (htext : IsNumeral text) :
      ∃ c cs, text = c :: cs ∧ ¬ isGap c ∧ c ≠ ']' := by
    obtain ⟨c, cs, rfl, hc⟩ := numeral_head hread htext
    exact ⟨c, cs, rfl, not_isGap_of_isNumeralPart (by simp [isNumeralPart, hc]),
      Json.ne_of_isNumeralChar hc ']' rfl⟩
  cases j with
  | null | unusable => exact ⟨_, _, rfl, by decide, by decide⟩
  | bool b => cases b <;> exact ⟨_, _, rfl, by decide, by decide⟩
  | int i => exact hnumeral (Json.readNumeral?_toString i) (IsNumeral.toString_int i)
  | number n =>
    rw [Json.compact, Json.numberText]
    split
    · obtain ⟨found, hread⟩ := n.exists_readNumeral?_finiteText
      exact hnumeral hread (IsNumeral.finiteText Number.documentLayout n)
    · exact ⟨_, _, rfl, by decide, by decide⟩
  | string s =>
    exact ⟨'"', _, by rw [Json.compact, stringText, String.toList_ofList]; rfl, by decide,
      by decide⟩
  | array items =>
    exact ⟨'[', _, by rw [Json.compact, String.toList_append, String.toList_append]; rfl,
      by decide, by decide⟩
  | object members =>
    exact ⟨'{', _, by rw [Json.compact, String.toList_append, String.toList_append]; rfl,
      by decide, by decide⟩

section Items

private theorem readItems?_item {c : Char} (hgap : ¬ isGap c) (hend : c ≠ ']') (fuel : Nat)
    (cs : List Char) : readItems? a (fuel + 1) (c :: cs) =
      (readValue? a fuel (c :: cs)).bind fun (item, rest) =>
        match skipGaps rest with
        | ',' :: rest =>
          (readItems? a fuel rest).bind fun (items, rest) => some (item :: items, rest)
        | ']' :: rest => some ([item], rest)
        | _ => none := by
  rw [readItems?, skipGaps_cons hgap]
  split
  · next h => exact absurd (List.cons.inj h).1 hend
  · rfl

private theorem readItems?_compact {items : List Json} (h : ∀ item ∈ items, ReadsAs a item)
    (fuel : Nat) (hfuel : (compactItems items).toList.length < fuel) (rest : List Char) :
    readItems? a fuel ((compactItems items).toList ++ ']' :: rest) =
      if itemsSetPrototype items then none else some (itemLiterals items, rest) := by
  induction items generalizing fuel with
  | nil =>
    obtain ⟨fuel, rfl⟩ := Nat.exists_eq_add_one_of_ne_zero (Nat.ne_zero_of_lt hfuel)
    rfl
  | cons item items ih =>
    obtain ⟨fuel, rfl⟩ := Nat.exists_eq_add_one_of_ne_zero (Nat.ne_zero_of_lt hfuel)
    obtain ⟨hitem, hitems⟩ := List.forall_mem_cons.mp h
    obtain ⟨c, cs, hhead, hgap, hend⟩ := compact_head item
    have hstep (tail : List Char) := readItems?_item a hgap hend fuel (cs ++ tail)
    simp only [← List.cons_append, ← hhead] at hstep
    rw [Json.compactItems_toList] at hfuel ⊢
    rw [List.append_assoc, hstep, itemsSetPrototype, itemLiterals]
    cases items with
    | nil =>
      rw [if_pos rfl, List.append_nil] at hfuel
      have hread := hitem fuel ']' rest (Nat.le_of_lt_succ hfuel) (by decide)
      have hskip : skipGaps (']' :: rest) = ']' :: rest := skipGaps_cons (by decide) rest
      rw [if_pos rfl, List.nil_append, hread]
      cases item.setsPrototype <;> simp [itemsSetPrototype, itemLiterals, hskip]
    | cons next items =>
      rw [if_neg (List.cons_ne_nil next items), List.length_append, List.length_cons] at hfuel
      have hread := hitem fuel ',' ((compactItems (next :: items)).toList ++ ']' :: rest)
        (by omega) (by decide)
      have hskip (tail : List Char) : skipGaps (',' :: tail) = ',' :: tail :=
        skipGaps_cons (by decide) tail
      have hmore := ih hitems fuel (by omega)
      rw [if_neg (List.cons_ne_nil next items), List.cons_append, hread]
      cases item.setsPrototype
      · rw [if_neg Bool.false_ne_true, Option.bind_some, hskip]
        change (readItems? a fuel _).bind _ = _
        rw [hmore, Bool.false_or]
        split <;> rfl
      · rfl

end Items

section Members

private theorem readMembers?_member (key : String) (fuel : Nat) (after : List Char) :
    readMembers? a (fuel + 1) ((stringText key).toList ++ ':' :: after) =
      if key = prototypeKey then none
      else (readValue? a fuel after).bind fun (value, rest) =>
        readFurther? a fuel (key, value) rest := by
  obtain ⟨cs, htext, hread⟩ := readString?_stringText key (':' :: after)
  have hkey : readKey? a (skipGaps ('"' :: cs)) = some (key.toList, ':' :: after) := by
    rw [skipGaps_cons (by decide)]
    exact hread
  rw [htext, readMembers?_key hkey, String.ofList_toList]
  by_cases hprototype : key = prototypeKey
  · rw [if_pos (congrArg String.toList hprototype), if_pos hprototype]
  · rw [if_neg fun h => hprototype (String.toList_inj.mp h), if_neg hprototype]

private theorem readMembers?_compact {members : List (String × Json)}
    (h : ∀ member ∈ members, ReadsAs a member.2)
    (fuel : Nat) (hfuel : (compactMembers members).toList.length < fuel) (rest : List Char) :
    readMembers? a fuel ((compactMembers members).toList ++ '}' :: rest) =
      if membersSetPrototype members then none else some (memberLiterals members, rest) := by
  induction members generalizing fuel with
  | nil =>
    obtain ⟨fuel, rfl⟩ := Nat.exists_eq_add_one_of_ne_zero (Nat.ne_zero_of_lt hfuel)
    rfl
  | cons member members ih =>
    obtain ⟨key, value⟩ := member
    obtain ⟨fuel, rfl⟩ := Nat.exists_eq_add_one_of_ne_zero (Nat.ne_zero_of_lt hfuel)
    obtain ⟨hvalue, hmembers⟩ := List.forall_mem_cons.mp h
    change ReadsAs a value at hvalue
    rw [Json.compactMembers_toList] at hfuel ⊢
    rw [List.append_assoc, List.cons_append, readMembers?_member, List.append_assoc]
    rw [membersSetPrototype, memberLiterals]
    by_cases hkey : key = prototypeKey
    · simp [hkey]
    rw [if_neg hkey, decide_eq_false hkey, Bool.false_or]
    cases members with
    | nil =>
      rw [if_pos rfl, List.append_nil] at hfuel
      have hread := hvalue fuel '}' rest (by simp at hfuel; omega) (by decide)
      rw [if_pos rfl, List.nil_append, hread]
      cases value.setsPrototype
      · rw [if_neg Bool.false_ne_true, Option.bind_some]
        exact readFurther?_brace fuel (key, value.asLiteral) rest
      · rfl
    | cons next members =>
      rw [if_neg (List.cons_ne_nil next members)] at hfuel
      have hread := hvalue fuel ',' ((compactMembers (next :: members)).toList ++ '}' :: rest)
        (by simp at hfuel; omega) (by decide)
      have hmore := ih hmembers fuel (by simp at hfuel; omega)
      rw [if_neg (List.cons_ne_nil next members), List.cons_append, hread]
      cases value.setsPrototype
      · rw [if_neg Bool.false_ne_true, Option.bind_some, Bool.false_or]
        dsimp only
        rw [readFurther?_comma, hmore]
        split <;> rfl
      · rfl

end Members

/-- Wherever it stands, a document is read as itself. -/
theorem readsAs (j : Json) : ReadsAs a j := by
  induction j using Json.induction with
  | array items ih =>
    intro fuel stop rest hfuel _
    have htext : (Json.array items).compact.toList =
        '[' :: ((compactItems items).toList ++ [']']) := by
      rw [Json.compact, String.toList_append, String.toList_append]
      rfl
    rw [htext, List.length_cons, List.length_append, List.length_singleton] at hfuel
    obtain ⟨fuel, rfl⟩ : ∃ n, fuel = n + 1 := ⟨fuel - 1, by omega⟩
    have hread := readItems?_compact a ih fuel (by omega) (stop :: rest)
    rw [htext, List.cons_append, List.append_assoc, List.singleton_append, readValue?,
      skipGaps_cons (by decide)]
    change (readItems? a fuel _).map _ = _
    rw [hread, Json.setsPrototype, Json.asLiteral]
    split <;> rfl
  | object members ih =>
    intro fuel stop rest hfuel _
    have htext : (Json.object members).compact.toList =
        '{' :: ((compactMembers members).toList ++ ['}']) := by
      rw [Json.compact, String.toList_append, String.toList_append]
      rfl
    rw [htext, List.length_cons, List.length_append, List.length_singleton] at hfuel
    obtain ⟨fuel, rfl⟩ : ∃ n, fuel = n + 1 := ⟨fuel - 1, by omega⟩
    have hread := readMembers?_compact a ih fuel (by omega) (stop :: rest)
    rw [htext, List.cons_append, List.append_assoc, List.singleton_append, readValue?,
      skipGaps_cons (by decide)]
    change (readMembers? a fuel _).map _ = _
    rw [hread, Json.setsPrototype, Json.asLiteral]
    split <;> rfl
  | leaf j hleaf =>
    intro fuel stop rest hfuel hstop
    obtain ⟨c, cs, hhead, -⟩ := compact_head j
    rw [hhead, List.length_cons] at hfuel
    obtain ⟨fuel, rfl⟩ : ∃ n, fuel = n + 1 := ⟨fuel - 1, by omega⟩
    cases j with
    | null | unusable => rfl
    | bool b => cases b <;> rfl
    | int i =>
      have hread := readValue?_numeral a (Json.readNumeral?_toString i) (IsNumeral.toString_int i)
        hstop fuel rest
      rwa [String.ofList_toList] at hread
    | number n =>
      rw [Json.compact, Json.numberText, Json.asLiteral]
      split
      · obtain ⟨found, hfound⟩ := n.exists_readNumeral?_finiteText
        have hread := readValue?_numeral a hfound
          (IsNumeral.finiteText Number.documentLayout n) hstop fuel rest
        rwa [String.ofList_toList] at hread
      · rfl
    | string s =>
      obtain ⟨cs, htext, hread⟩ := readString?_stringText s (stop :: rest)
      rw [Json.compact, htext, readValue?, skipGaps_cons (by decide)]
      change (readString? '"' .plain cs).map _ = _
      rw [hread, Option.map_some]
      dsimp only
      rw [String.ofList_toList]
      rfl
    | array items => exact hleaf.elim
    | object members => exact hleaf.elim

end Literal

end Pagewright
