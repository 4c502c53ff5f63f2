import Pagewright.Proofs.Json.Leaves
import Pagewright.Proofs.Json.Numerals

/-! A document that is written is read as itself, as long as the text of each of its numbers reads
back as the number. -/

namespace Pagewright

namespace Json

/-- A literal has a form of its own as text: an integer fits 64 bits, a number reads back, and the
literal has a value. -/
def IsWritable : Json → Prop
  | .int i => leastInt64 ≤ i ∧ i < wordBound
  | .number n => n.ReadsBack
  | .unusable => False
  | _ => True

/-- All literals of the document have a form of their own as text. -/
def Writable (j : Json) : Prop := j.Every IsWritable

section Strings

/-- The piece stands for the character: as itself, or as the unit of a control. -/
private def StandsFor (p : Piece) (c : Char) : Prop :=
  p = .char c ∨ p = .unit c.toNat ∧ c.toNat < 0x20

private theorem readPieces?_plain {c : Char} (hquote : c ≠ '"') (hslash : c ≠ '\\')
    (hcontrol : ¬ c.toNat < 0x20) (rest : List Char) : readPieces? (c :: rest) =
      (readPieces? rest).map fun (pieces, rest) => (.char c :: pieces, rest) := by
  have allowed : ¬ (decide (c = '\\') || decide (c.toNat < 0x20)) = true := by
    simp [hslash, hcontrol]
  rw [readPieces?, if_neg allowed]
  · cases readPieces? rest <;> rfl
  · exact hquote
  · exact fun _ _ _ _ _ h _ => hslash h
  · exact fun _ _ h _ => hslash h

private theorem readPieces?_letter {c named : Char} (hc : c ≠ 'u')
    (h : letterEscape? c = some named) (rest : List Char) :
    readPieces? ('\\' :: c :: rest) =
      (readPieces? rest).map fun (pieces, rest) => (.char named :: pieces, rest) := by
  rw [readPieces?, h]
  · cases readPieces? rest <;> rfl
  · exact fun _ _ _ _ _ hu _ => hc hu

private theorem readPieces?_unit {a b c d : Char} {value : Nat}
    (h : unitValue? a b c d = some value) (rest : List Char) :
    readPieces? ('\\' :: 'u' :: a :: b :: c :: d :: rest) =
      (readPieces? rest).map fun (pieces, rest) => (.unit value :: pieces, rest) := by
  rw [readPieces?, h]
  cases readPieces? rest <;> rfl

private theorem readPieces?_escapeChar (c : Char) : ∃ p, StandsFor p c ∧ ∀ rest,
    readPieces? (escapeChar c ++ rest) =
      (readPieces? rest).map fun (pieces, rest) => (p :: pieces, rest) := by
  have unit : ∀ n < 0x20,
      unitValue? '0' '0' (Nat.digitChar (n / 16)) (Nat.digitChar (n % 16)) = some n := by decide
  by_cases hnamed : c ∈ ['"', '\\', '\x08', '\x0c', '\n', '\r', '\t']
  · simp only [List.mem_cons, List.not_mem_nil, or_false] at hnamed
    rcases hnamed with rfl | rfl | rfl | rfl | rfl | rfl | rfl <;>
      exact ⟨_, .inl rfl, readPieces?_letter (by decide) rfl⟩
  · simp only [List.mem_cons, List.not_mem_nil, or_false, not_or] at hnamed
    simp only [escapeChar, hnamed, if_false]
    split
    · next h => exact ⟨.unit c.toNat, .inr ⟨rfl, h⟩, readPieces?_unit (unit c.toNat h)⟩
    · next h => exact ⟨.char c, .inl rfl, readPieces?_plain hnamed.1 hnamed.2.1 h⟩

private theorem assemble?_cons {p : Piece} {c : Char} (h : StandsFor p c) (pieces : List Piece) :
    assemble? (p :: pieces) = (assemble? pieces).map (c :: ·) := by
  rcases h with rfl | ⟨rfl, hcontrol⟩
  · rw [assemble?]
  · have high : ¬ (decide (0xD800 ≤ c.toNat) && decide (c.toNat < 0xDC00)) = true := by
      simp; omega
    have low : ¬ (decide (0xDC00 ≤ c.toNat) && decide (c.toNat < 0xE000)) = true := by
      simp; omega
    have any : ¬ (decide (0xD800 ≤ c.toNat) && decide (c.toNat < 0xE000)) = true := by
      simp; omega
    have self : Char.ofNat c.toNat = c := Char.ofNat_toNat c
    cases pieces with
    | nil => simp only [assemble?, if_neg any, self]
    | cons next rest =>
      cases next with
      | char d => simp only [assemble?, if_neg any, self]
      | unit d => simp only [assemble?, if_neg high, if_neg low, self]

/-- A string that is written is read as itself. -/
theorem readString?_escaped (cs rest : List Char) :
    readString? (cs.flatMap escapeChar ++ '"' :: rest) = some (some (String.ofList cs), rest) := by
  have read : ∃ pieces, readPieces? (cs.flatMap escapeChar ++ '"' :: rest) = some (pieces, rest) ∧
      assemble? pieces = some cs := by
    induction cs with
    | nil => exact ⟨[], by rw [List.flatMap_nil, List.nil_append, readPieces?], rfl⟩
    | cons c cs ih =>
      obtain ⟨pieces, hpieces, hassemble⟩ := ih
      obtain ⟨p, hp, hread⟩ := readPieces?_escapeChar c
      refine ⟨p :: pieces, ?_, ?_⟩
      · rw [List.flatMap_cons, List.append_assoc, hread, hpieces]
        rfl
      · rw [assemble?_cons hp, hassemble]
        rfl
  obtain ⟨pieces, hpieces, hassemble⟩ := read
  rw [readString?, hpieces, Option.map_some]
  dsimp only
  rw [hassemble, Option.map_some]

end Strings

theorem readValue?_stringText (s : String) (fuel : Nat) (rest : List Char) :
    readValue? (fuel + 1) ((stringText s).toList ++ rest) = some (.string s, rest) := by
  have text : (stringText s).toList ++ rest =
      '"' :: (s.toList.flatMap escapeChar ++ '"' :: rest) := by
    simp [stringText]
  rw [text, readValue?]
  change (readString? _).map _ = _
  rw [readString?_escaped, String.ofList_toList]
  rfl

private theorem NumeralOf.head {j : Json} {text : List Char} (h : NumeralOf j text) :
    ∃ c cs, text = c :: cs ∧ isSpace c = false ∧ c ≠ ']' := by
  obtain ⟨n, hn, _⟩ := h.read
  cases text with
  | nil => cases hn
  | cons c cs =>
    have hc := h.numeral c List.mem_cons_self
    exact ⟨c, cs, rfl, isSpace_of_isNumeralChar hc, ne_of_isNumeralChar hc ']' rfl⟩

/-- The text of a value begins neither with a blank nor with the end of a list. -/
private theorem compact_head {j : Json} (h : j.Writable) :
    ∃ c cs, j.compact.toList = c :: cs ∧ isSpace c = false ∧ c ≠ ']' := by
  cases j with
  | null => exact ⟨_, _, rfl, rfl, by decide⟩
  | bool b => cases b <;> exact ⟨_, _, rfl, rfl, by decide⟩
  | int i =>
    obtain ⟨hleast, hbound⟩ := h (.int i) List.mem_cons_self
    exact (NumeralOf.int hleast hbound).head
  | number n =>
    have back : n.ReadsBack := h (.number n) List.mem_cons_self
    exact back.numeralOf.head
  | string s =>
    exact ⟨'"', _, by rw [compact, stringText, String.toList_ofList]; rfl, rfl, by decide⟩
  | array items =>
    exact ⟨'[', _, by rw [compact, String.toList_append, String.toList_append]; rfl, rfl, by decide⟩
  | object members =>
    exact ⟨'{', _, by rw [compact, String.toList_append, String.toList_append]; rfl, rfl, by decide⟩
  | unusable => exact (h .unusable List.mem_cons_self).elim

theorem compactItems_toList (item : Json) (items : List Json) :
    (compactItems (item :: items)).toList = item.compact.toList ++
      if items = [] then [] else ',' :: (compactItems items).toList := by
  cases items with
  | nil => simp [compactItems]
  | cons next rest => simp [compactItems, String.toList_append]

theorem compactMembers_toList (key : String) (value : Json)
    (members : List (String × Json)) : (compactMembers ((key, value) :: members)).toList =
      (stringText key).toList ++ ':' :: (value.compact.toList ++
        if members = [] then [] else ',' :: (compactMembers members).toList) := by
  cases members with
  | nil => simp [compactMembers, String.toList_append]
  | cons next rest => simp [compactMembers, String.toList_append]

private theorem readValue?_array {c : Char} (hspace : isSpace c = false) (hend : c ≠ ']')
    (fuel : Nat) (cs : List Char) : readValue? (fuel + 1) ('[' :: c :: cs) =
      (readItems? fuel (c :: cs)).map fun (items, rest) => (.array items, rest) := by
  have bracket : skipSpace ('[' :: c :: cs) = '[' :: c :: cs := rfl
  rw [readValue?, bracket]
  simp only [skipSpace_cons hspace]
  split
  · next h => exact absurd (List.cons.inj h).1 hend
  · rfl

private theorem compactMembers_head (member : String × Json) (members : List (String × Json)) :
    ∃ cs, (compactMembers (member :: members)).toList = '"' :: cs := by
  obtain ⟨key, value⟩ := member
  exact ⟨_, by rw [compactMembers_toList, stringText, String.toList_ofList]; rfl⟩

private theorem readMembers?_key (fuel : Nat) (key : String) (after : List Char) :
    readMembers? (fuel + 1) ((stringText key).toList ++ ':' :: after) =
      (readValue? fuel after).bind fun (value, rest) =>
        match skipSpace rest with
        | ',' :: rest =>
          (readMembers? fuel rest).bind fun (members, rest) =>
            some ((some key, value) :: members, rest)
        | '}' :: rest => some ([(some key, value)], rest)
        | _ => none := by
  have text : (stringText key).toList ++ ':' :: after =
      '"' :: (key.toList.flatMap escapeChar ++ '"' :: ':' :: after) := by
    simp [stringText]
  rw [text, readMembers?]
  change ((readString? _).bind _) = _
  rw [readString?_escaped, String.ofList_toList]
  rfl

private theorem ofMembers_map (members : List (String × Json)) :
    ofMembers (members.map fun (key, value) => (some key, value)) = .object members := by
  have read : ((members.map fun m => (some m.1, m.2)).mapM fun m => m.1.map (·, m.2)) =
      some members := by
    induction members with
    | nil => rfl
    | cons member rest ih => rw [List.map_cons, List.mapM_cons, ih]; rfl
  unfold ofMembers
  split
  · next found =>
    cases found.symm.trans read
    rfl
  · next found => cases found.symm.trans read

/-- Wherever the text of the value stands, it is read as the value. -/
def Reads (j : Json) : Prop :=
  ∀ fuel rest, j.compact.toList.length ≤ fuel → EndsToken rest →
    readValue? fuel (j.compact.toList ++ rest) = some (j, rest)

private theorem readItems?_compact {item : Json} {items : List Json}
    (h : ∀ item' ∈ item :: items, item'.Reads) (fuel : Nat)
    (hfuel : (compactItems (item :: items)).toList.length < fuel) (rest : List Char) :
    readItems? fuel ((compactItems (item :: items)).toList ++ ']' :: rest) =
      some (item :: items, rest) := by
  induction items generalizing item fuel with
  | nil =>
    obtain ⟨fuel, rfl⟩ := Nat.exists_eq_add_one_of_ne_zero (Nat.ne_zero_of_lt hfuel)
    rw [compactItems_toList, if_pos rfl, List.append_nil] at hfuel ⊢
    have read := h item List.mem_cons_self fuel _ (by omega) (.bracket rest)
    rw [readItems?, read]
    rfl
  | cons next others ih =>
    obtain ⟨fuel, rfl⟩ := Nat.exists_eq_add_one_of_ne_zero (Nat.ne_zero_of_lt hfuel)
    rw [compactItems_toList, if_neg (List.cons_ne_nil next others), List.length_append,
      List.length_cons] at hfuel
    have read := h item List.mem_cons_self fuel _ (by omega)
      (.comma ((compactItems (next :: others)).toList ++ ']' :: rest))
    have readRest := ih (fun item' hm => h item' (List.mem_cons_of_mem item hm)) fuel (by omega)
    rw [compactItems_toList, if_neg (List.cons_ne_nil next others), List.append_assoc,
      List.cons_append, readItems?, read]
    change (readItems? fuel _ >>= _) = _
    rw [readRest]
    rfl

private theorem readMembers?_compact {member : String × Json} {members : List (String × Json)}
    (h : ∀ member' ∈ member :: members, member'.2.Reads) (fuel : Nat)
    (hfuel : (compactMembers (member :: members)).toList.length < fuel) (rest : List Char) :
    readMembers? fuel ((compactMembers (member :: members)).toList ++ '}' :: rest) =
      some ((member :: members).map fun (key, value) => (some key, value), rest) := by
  induction members generalizing member fuel with
  | nil =>
    obtain ⟨key, value⟩ := member
    obtain ⟨fuel, rfl⟩ := Nat.exists_eq_add_one_of_ne_zero (Nat.ne_zero_of_lt hfuel)
    rw [compactMembers_toList, if_pos rfl, List.append_nil] at hfuel ⊢
    have hvalue : value.Reads := h (key, value) List.mem_cons_self
    have read := hvalue fuel _ (by simp at hfuel; omega) (.brace rest)
    rw [List.append_assoc, List.cons_append, readMembers?_key, read]
    rfl
  | cons next others ih =>
    obtain ⟨key, value⟩ := member
    obtain ⟨fuel, rfl⟩ := Nat.exists_eq_add_one_of_ne_zero (Nat.ne_zero_of_lt hfuel)
    rw [compactMembers_toList, if_neg (List.cons_ne_nil next others)] at hfuel ⊢
    have hvalue : value.Reads := h (key, value) List.mem_cons_self
    have read := hvalue fuel _ (by simp at hfuel; omega)
      (.comma ((compactMembers (next :: others)).toList ++ '}' :: rest))
    have readRest := ih (fun member' hm => h member' (List.mem_cons_of_mem _ hm)) fuel
      (by simp at hfuel; omega)
    rw [List.append_assoc, List.cons_append, readMembers?_key, List.append_assoc,
      List.cons_append, read]
    change (readMembers? fuel _).bind _ = _
    rw [readRest]
    rfl

private theorem reads_array {items : List Json} (h : (Json.array items).Writable)
    (ih : ∀ item ∈ items, item.Reads) : (Json.array items).Reads := by
  intro fuel rest hfuel _
  have text : (Json.array items).compact.toList =
      '[' :: ((compactItems items).toList ++ [']']) := by
    rw [compact, String.toList_append, String.toList_append]
    rfl
  rw [text, List.length_cons, List.length_append, List.length_singleton] at hfuel
  obtain ⟨fuel, rfl⟩ : ∃ n, fuel = n + 1 := ⟨fuel - 1, by omega⟩
  rw [text, List.cons_append, List.append_assoc, List.singleton_append]
  cases items with
  | nil => rfl
  | cons item items =>
    obtain ⟨c, cs, hhead, hspace, hend⟩ :=
      compact_head (every_array.mp h item List.mem_cons_self)
    have read := readItems?_compact ih fuel (by omega) rest
    rw [compactItems_toList, hhead] at read ⊢
    simp only [List.cons_append] at read ⊢
    rw [readValue?_array hspace hend, read]
    rfl

private theorem reads_object {members : List (String × Json)}
    (ih : ∀ member ∈ members, member.2.Reads) : (Json.object members).Reads := by
  intro fuel rest hfuel _
  have text : (Json.object members).compact.toList =
      '{' :: ((compactMembers members).toList ++ ['}']) := by
    rw [compact, String.toList_append, String.toList_append]
    rfl
  rw [text, List.length_cons, List.length_append, List.length_singleton] at hfuel
  obtain ⟨fuel, rfl⟩ : ∃ n, fuel = n + 1 := ⟨fuel - 1, by omega⟩
  rw [text, List.cons_append, List.append_assoc, List.singleton_append]
  cases members with
  | nil => rfl
  | cons member members =>
    have read := readMembers?_compact ih fuel (by omega) rest
    obtain ⟨cs, hhead⟩ := compactMembers_head member members
    rw [hhead, List.cons_append] at read ⊢
    change (readMembers? fuel _).map _ = _
    rw [read, Option.map_some]
    exact congrArg (fun j => some (j, rest)) (ofMembers_map (member :: members))

/-- Wherever it stands, a writable value is read as itself. -/
theorem Writable.reads {j : Json} (h : j.Writable) : j.Reads := by
  induction j using Json.induction with
  | array items ih => exact reads_array h fun item hm => ih item hm (every_array.mp h item hm)
  | object members ih =>
    exact reads_object fun member hm => ih member hm (every_object.mp h member hm)
  | leaf j hleaf =>
    intro fuel rest hfuel hrest
    obtain ⟨c, cs, hhead, _⟩ := compact_head h
    rw [hhead, List.length_cons] at hfuel
    obtain ⟨fuel, rfl⟩ : ∃ n, fuel = n + 1 := ⟨fuel - 1, by omega⟩
    cases j with
    | null => rfl
    | bool b => cases b <;> rfl
    | int i =>
      obtain ⟨hleast, hbound⟩ := h (.int i) List.mem_cons_self
      exact (NumeralOf.int hleast hbound).readValue? hrest fuel
    | number n =>
      have back : n.ReadsBack := h (.number n) List.mem_cons_self
      exact back.numeralOf.readValue? hrest fuel
    | string s => exact readValue?_stringText s fuel rest
    | array items => exact hleaf.elim
    | object members => exact hleaf.elim
    | unusable => exact (h .unusable List.mem_cons_self).elim

/-- A writable document is read from its text. -/
theorem parse?_compact {j : Json} (h : j.Writable) : parse? j.compact = some j := by
  have read := h.reads (j.compact.toList.length + 1) [] (by omega) .done
  rw [List.append_nil] at read
  rw [parse?, read]
  rfl

end Json

end Pagewright
