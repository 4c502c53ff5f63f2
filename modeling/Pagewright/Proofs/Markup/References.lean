import Pagewright.Proofs.Markup.Escape

/-!
Character references. A reader of markup takes a reference for the character that it denotes, and
in running text a quoted character in braces for that character. Escaping leaves ampersands alone,
and so a text is read back from its escaped form exactly when it holds no reference itself.
-/

namespace Pagewright

/-- Characters between the ampersand and the semicolon of a reference. -/
def isReferenceChar (c : Char) : Bool := c.isAlphanum || c = '#'

/-- What a reader knows of references: which texts between ampersand and semicolon denote a
character. Readers differ in the names they know and in the length of numbers, but all of them know
what escaping writes. -/
structure ReferenceTable where
  value? : List Char → Option Char
  chars : ∀ body c, value? body = some c → ∀ d ∈ body, isReferenceChar d
  quotation : value? "quot".toList = some '"'
  apostrophe : value? "apos".toList = some '\''
  less : value? "lt".toList = some '<'
  greater : value? "gt".toList = some '>'
  lineFeed : value? "#10".toList = some '\n'

namespace ReferenceTable

/-- The character that a reference denotes, and how many characters it takes behind its
ampersand, if the text behind an ampersand completes one. -/
def reference? (t : ReferenceTable) (rest : List Char) : Option (Char × Nat) :=
  let body := rest.takeWhile isReferenceChar
  match rest.dropWhile isReferenceChar with
  | ';' :: _ => (t.value? body).map (·, body.length + 1)
  | _ => none

/-- What stands for itself unless it begins a reference, and how many further characters belong to
it. -/
def token (t : ReferenceTable) (c : Char) (rest : List Char) : Char × Nat :=
  if c = '&' then (t.reference? rest).getD ('&', 0) else (c, 0)

/-- A text in which references are taken for what they denote. The number tells how many characters
still belong to the last reference. -/
def decodeFrom (t : ReferenceTable) : Nat → List Char → List Char
  | _, [] => []
  | skip + 1, _ :: rest => t.decodeFrom skip rest
  | 0, c :: rest => (t.token c rest).1 :: t.decodeFrom (t.token c rest).2 rest

def decode (t : ReferenceTable) (text : List Char) : List Char := t.decodeFrom 0 text

/-- Somewhere in the text stands a reference. -/
def HoldsReference (t : ReferenceTable) (text : List Char) : Prop := ∃ before body after,
  text = before ++ '&' :: (body ++ ';' :: after) ∧ (t.value? body).isSome

end ReferenceTable

/-- A quoted character and the end of its expression, behind the opening brace. -/
def quotedChar? : List Char → Option (Char × Nat)
  | '\'' :: c :: '\'' :: '\x7d' :: _ =>
    if c = '\'' || c = '\\' || c = '\n' || c = '\r' then none else some (c, 4)
  | _ => none

namespace ReferenceTable

/-- In running text braces are expressions, and a mark of markup may not stand on its own. -/
def textToken? (t : ReferenceTable) (c : Char) (rest : List Char) : Option (Char × Nat) :=
  if c = '\x7b' then quotedChar? rest
  else if c = '\x7d' || c = '>' then none
  else some (t.token c rest)

end ReferenceTable

/-- Reads up to a mark, which stays in front of the rest. -/
def readUpTo? (mark : Char) (token? : Char → List Char → Option (Char × Nat)) :
    Nat → List Char → Option (List Char × List Char)
  | _, [] => none
  | skip + 1, _ :: rest => readUpTo? mark token? skip rest
  | 0, c :: rest =>
    if c = mark then some ([], c :: rest)
    else (token? c rest).bind fun found =>
      (readUpTo? mark token? found.2 rest).map (Prod.map (found.1 :: ·) id)

/-- Reads running text up to a tag. -/
def ReferenceTable.readText? (t : ReferenceTable) (text : List Char) :
    Option (List Char × List Char) :=
  readUpTo? '<' t.textToken? 0 text

/-- Reads an attribute value up to its closing quotation mark. -/
def ReferenceTable.readValue? (t : ReferenceTable) (text : List Char) :
    Option (List Char × List Char) :=
  readUpTo? '"' (fun c rest => some (t.token c rest)) 0 text

/-- Writes every character as a piece of text that may depend on the next character. -/
def escapeBy (piece : Char → Option Char → List Char) : List Char → List Char
  | [] => []
  | c :: rest => piece c rest.head? ++ escapeBy piece rest

namespace ReferenceTable

variable {t : ReferenceTable} {text rest : List Char} {c : Char} {n : Nat}

section Decode

theorem takeWhile_reference {body : List Char} (h : ∀ c ∈ body, isReferenceChar c)
    (after : List Char) : (body ++ ';' :: after).takeWhile isReferenceChar = body ∧
      (body ++ ';' :: after).dropWhile isReferenceChar = ';' :: after := by
  rw [List.takeWhile_append_of_pos h, List.dropWhile_append_of_pos h]
  exact ⟨List.append_nil body, rfl⟩

theorem reference?_eq_some_iff : t.reference? rest = some (c, n) ↔ ∃ body after,
    rest = body ++ ';' :: after ∧ t.value? body = some c ∧ n = body.length + 1 := by
  unfold reference?
  constructor
  · intro h
    split at h
    · next after hafter =>
      obtain ⟨value, hvalue, hpair⟩ := Option.map_eq_some_iff.mp h
      obtain ⟨rfl, rfl⟩ := Prod.mk.inj hpair
      refine ⟨_, after, ?_, hvalue, rfl⟩
      rw [← hafter, List.takeWhile_append_dropWhile]
    · cases h
  · rintro ⟨body, after, rfl, hvalue, rfl⟩
    obtain ⟨htake, hdrop⟩ := takeWhile_reference (t.chars body c hvalue) after
    rw [hdrop, htake]
    simp [hvalue]

theorem decodeFrom_skip (n : Nat) (text : List Char) :
    t.decodeFrom n text = t.decode (text.drop n) := by
  induction text generalizing n with
  | nil => simp [decode, decodeFrom]
  | cons c rest ih =>
    cases n with
    | zero => rfl
    | succ n => rw [decodeFrom, ih, List.drop_succ_cons]

theorem decode_cons (c : Char) (rest : List Char) : t.decode (c :: rest) =
    (t.token c rest).1 :: t.decode (rest.drop (t.token c rest).2) := by
  rw [decode, decodeFrom, decodeFrom_skip]

theorem decode_reference {body after : List Char} (h : t.value? body = some c) :
    t.decode ('&' :: (body ++ ';' :: after)) = c :: t.decode after := by
  have href : t.reference? (body ++ ';' :: after) = some (c, body.length + 1) :=
    reference?_eq_some_iff.mpr ⟨body, after, rfl, h, rfl⟩
  have htail : (body ++ ';' :: after).drop (body.length + 1) = after := by
    rw [← List.singleton_append, ← List.append_assoc, List.drop_left' (by simp)]
  rw [decode_cons, token, if_pos rfl, href, Option.getD_some, htail]

/-- A character that begins no reference is taken for itself. -/
theorem decode_self (h : c = '&' → t.reference? rest = none) :
    t.decode (c :: rest) = c :: t.decode rest := by
  have htoken : t.token c rest = (c, 0) := by
    unfold token
    split
    · next hc =>
      rw [h hc, hc]
      rfl
    · rfl
  rw [decode_cons, htoken, List.drop_zero]

/-- At the beginning of a text stands a reference, or a character that is taken for itself. -/
theorem reference_or_self (t : ReferenceTable) (c : Char) (rest : List Char) :
    (∃ d body after, c = '&' ∧ rest = body ++ ';' :: after ∧ t.value? body = some d) ∨
      (c = '&' → t.reference? rest = none) := by
  by_cases hc : c = '&'
  · cases href : t.reference? rest with
    | none => exact .inr fun _ => rfl
    | some found =>
      obtain ⟨d, n⟩ := found
      obtain ⟨body, after, hrest, hvalue, -⟩ := reference?_eq_some_iff.mp href
      exact .inl ⟨d, body, after, hc, hrest, hvalue⟩
  · exact .inr fun h => absurd h hc

/-- Induction along a reader: a text goes on behind a reference, or behind a character that is taken
for itself. -/
@[elab_as_elim]
theorem induction (t : ReferenceTable) {motive : List Char → Prop} (nil : motive [])
    (reference : ∀ {d body} (_ : t.value? body = some d) (after : List Char), motive after →
      motive ('&' :: (body ++ ';' :: after)))
    (self : ∀ (c : Char) (rest : List Char), (c = '&' → t.reference? rest = none) → motive rest →
      motive (c :: rest)) (text : List Char) : motive text := by
  match text with
  | [] => exact nil
  | c :: rest =>
    rcases t.reference_or_self c rest with ⟨d, body, after, rfl, rfl, hvalue⟩ | hself
    · exact reference hvalue after (induction t nil reference self after)
    · exact self c rest hself (induction t nil reference self rest)
termination_by text.length
decreasing_by all_goals subst_vars; simp +arith

theorem length_decodeFrom_le (n : Nat) (text : List Char) :
    (t.decodeFrom n text).length ≤ text.length := by
  induction text generalizing n with
  | nil => simp [decodeFrom]
  | cons c rest ih =>
    cases n with
    | zero => exact Nat.succ_le_succ (ih _)
    | succ n => exact Nat.le_succ_of_le (ih n)

theorem holdsReference_cons_iff : t.HoldsReference (c :: rest) ↔
    (∃ body after, c = '&' ∧ rest = body ++ ';' :: after ∧ (t.value? body).isSome) ∨
      t.HoldsReference rest := by
  constructor
  · rintro ⟨before, body, after, htext, hvalue⟩
    cases before with
    | nil =>
      obtain ⟨hc, hrest⟩ := List.cons.inj htext
      exact .inl ⟨body, after, hc, hrest, hvalue⟩
    | cons _ before => exact .inr ⟨before, body, after, (List.cons.inj htext).2, hvalue⟩
  · rintro (⟨body, after, rfl, rfl, hvalue⟩ | ⟨before, body, after, rfl, hvalue⟩)
    · exact ⟨[], body, after, rfl, hvalue⟩
    · exact ⟨c :: before, body, after, rfl, hvalue⟩

/-- Decoding changes every text that holds a reference, since it makes it shorter. -/
theorem decode_eq_self_iff : t.decode text = text ↔ ¬ t.HoldsReference text := by
  induction text with
  | nil => exact iff_of_true rfl fun ⟨_, _, _, h, _⟩ => by simp at h
  | cons c rest ih =>
    rw [holdsReference_cons_iff]
    rcases t.reference_or_self c rest with ⟨d, body, after, rfl, rfl, hvalue⟩ | hself
    · refine iff_of_false (fun h => ?_) fun h => h (.inl ⟨body, after, rfl, rfl, by simp [hvalue]⟩)
      have hshort : (t.decode after).length ≤ after.length := length_decodeFrom_le 0 after
      have hlength := congrArg List.length h
      rw [decode_reference hvalue] at hlength
      simp only [List.length_cons, List.length_append] at hlength
      omega
    · rw [decode_self hself, List.cons.injEq, ih]
      have hnone : ¬ ∃ body after, c = '&' ∧ rest = body ++ ';' :: after ∧
          (t.value? body).isSome := by
        rintro ⟨body, after, hc, hrest, hvalue⟩
        obtain ⟨d, hd⟩ := Option.isSome_iff_exists.mp hvalue
        have href := reference?_eq_some_iff.mpr ⟨body, after, hrest, hd, rfl⟩
        rw [hself hc] at href
        cases href
      rw [or_iff_right hnone, eq_self_iff_true, true_and]

instance (t : ReferenceTable) (text : List Char) : Decidable (t.HoldsReference text) :=
  decidable_of_iff (t.decode text ≠ text) (by rw [Ne, decode_eq_self_iff, not_not])

end Decode

section Reading

variable {mark : Char} {token? : Char → List Char → Option (Char × Nat)}
  {piece : Char → Option Char → List Char}

theorem readUpTo?_mark (rest : List Char) :
    readUpTo? mark token? 0 (mark :: rest) = some ([], mark :: rest) := by
  simp [readUpTo?]

theorem readUpTo?_skip (read rest : List Char) :
    readUpTo? mark token? read.length (read ++ rest) = readUpTo? mark token? 0 rest := by
  induction read with
  | nil => rfl
  | cons c read ih => exact ih

/-- A token and the characters that belong to it are read as the character it stands for. -/
theorem readUpTo?_token {c d : Char} {more : List Char} (hmark : c ≠ mark)
    (h : token? c (more ++ rest) = some (d, more.length)) :
    readUpTo? mark token? 0 (c :: (more ++ rest)) =
      (readUpTo? mark token? 0 rest).map (Prod.map (d :: ·) id) := by
  rw [readUpTo?, if_neg hmark, h, Option.bind_some, readUpTo?_skip]

theorem readUpTo?_self {c : Char} (hmark : c ≠ mark) (h : token? c rest = some (c, 0)) :
    readUpTo? mark token? 0 (c :: rest) =
      (readUpTo? mark token? 0 rest).map (Prod.map (c :: ·) id) := by
  rw [readUpTo?, if_neg hmark, h, Option.bind_some]

theorem readUpTo?_entity (hmark : mark ≠ '&')
    (hampersand : ∀ rest, token? '&' rest = some (t.token '&' rest)) {body : List Char} {d : Char}
    (hvalue : t.value? body = some d) (rest : List Char) :
    readUpTo? mark token? 0 ('&' :: (body ++ ';' :: rest)) =
      (readUpTo? mark token? 0 rest).map (Prod.map (d :: ·) id) := by
  have htext : body ++ ';' :: rest = (body ++ [';']) ++ rest := by simp
  have href : t.reference? ((body ++ [';']) ++ rest) = some (d, (body ++ [';']).length) :=
    reference?_eq_some_iff.mpr ⟨body, rest, by simp, hvalue, by simp⟩
  have htoken : token? '&' ((body ++ [';']) ++ rest) = some (d, (body ++ [';']).length) := by
    rw [hampersand, token, if_pos rfl, href]
    rfl
  rw [htext, readUpTo?_token hmark.symm htoken]

/-- How a reader takes the pieces that stand for the characters of a text: each of them for its
character, except that an ampersand is not escaped and may begin a reference. -/
structure ReadsPieces (t : ReferenceTable) (mark : Char)
    (token? : Char → List Char → Option (Char × Nat)) (piece : Char → Option Char → List Char) :
    Prop where
  mark_ne : ¬ isReferenceChar mark ∧ mark ≠ ';' ∧ mark ≠ '&'
  ampersand (rest : List Char) : token? '&' rest = some (t.token '&' rest)
  plain {c : Char} (next : Option Char) : isReferenceChar c ∨ c = ';' ∨ c = '&' → piece c next = [c]
  head (c : Char) (next : Option Char) : ∃ first more, piece c next = first :: more ∧
    (first = c ∨ first = '\x7b' ∨ first = '&')
  reads {c : Char} (next : Option Char) (rest : List Char) : c ≠ '&' →
    readUpTo? mark token? 0 (piece c next ++ rest) =
      (readUpTo? mark token? 0 rest).map (Prod.map (c :: ·) id)

namespace ReadsPieces

variable (h : ReadsPieces t mark token? piece)
include h

theorem escapeBy_plain {body : List Char} (hbody : ∀ c ∈ body, isReferenceChar c)
    (rest : List Char) : escapeBy piece (body ++ rest) = body ++ escapeBy piece rest := by
  induction body with
  | nil => rfl
  | cons c body ih =>
    obtain ⟨hc, hbody⟩ := List.forall_mem_cons.mp hbody
    rw [List.cons_append, escapeBy, h.plain _ (.inl hc), ih hbody]
    rfl

/-- What completes a reference in an escaped text completes it in the text. -/
theorem exists_of_escapeBy_eq {body after text tail : List Char}
    (hbody : ∀ c ∈ body, isReferenceChar c)
    (heq : escapeBy piece text ++ mark :: tail = body ++ ';' :: after) :
    ∃ after, text = body ++ ';' :: after := by
  obtain ⟨hmark, hsemicolon, -⟩ := h.mark_ne
  -- No piece but that of the character itself begins with a semicolon or a character of the body.
  induction body generalizing text with
  | nil =>
    cases text with
    | nil => exact absurd (List.cons.inj heq).1 hsemicolon
    | cons c rest =>
      obtain ⟨first, more, hpiece, hfirst⟩ := h.head c rest.head?
      rw [escapeBy, hpiece] at heq
      obtain rfl : first = ';' := (List.cons.inj heq).1
      obtain rfl : ';' = c := hfirst.resolve_right (by decide)
      exact ⟨rest, rfl⟩
  | cons b body ih =>
    obtain ⟨hb, hmore⟩ := List.forall_mem_cons.mp hbody
    cases text with
    | nil =>
      obtain rfl : mark = b := (List.cons.inj heq).1
      exact absurd hb hmark
    | cons c rest =>
      obtain ⟨first, more, hpiece, hfirst⟩ := h.head c rest.head?
      obtain rfl : first = b := by
        rw [escapeBy, hpiece] at heq
        exact (List.cons.inj heq).1
      obtain rfl : first = c := hfirst.resolve_right fun e => by
        rcases e with rfl | rfl <;> revert hb <;> decide
      rw [escapeBy, h.plain _ (.inl hb)] at heq
      obtain ⟨after, rfl⟩ := ih hmore (List.cons.inj heq).2
      exact ⟨after, rfl⟩

/-- A reference that the text holds is read as one. -/
theorem readUpTo?_reference {body : List Char} {d : Char} (hvalue : t.value? body = some d)
    (after tail : List Char) :
    readUpTo? mark token? 0 (escapeBy piece ('&' :: (body ++ ';' :: after)) ++ mark :: tail) =
      (readUpTo? mark token? 0 (escapeBy piece after ++ mark :: tail)).map
        (Prod.map (d :: ·) id) := by
  have htext : escapeBy piece ('&' :: (body ++ ';' :: after)) ++ mark :: tail =
      '&' :: (body ++ ';' :: (escapeBy piece after ++ mark :: tail)) := by
    rw [escapeBy, h.plain _ (.inr (.inr rfl)), h.escapeBy_plain (t.chars body d hvalue), escapeBy,
      h.plain _ (.inr (.inl rfl))]
    simp
  rw [htext, readUpTo?_entity h.mark_ne.2.2 h.ampersand hvalue]

/-- An ampersand that begins no reference is read as itself. -/
theorem readUpTo?_ampersand {text : List Char} (hnone : t.reference? text = none)
    (tail : List Char) :
    readUpTo? mark token? 0 (escapeBy piece ('&' :: text) ++ mark :: tail) =
      (readUpTo? mark token? 0 (escapeBy piece text ++ mark :: tail)).map
        (Prod.map ('&' :: ·) id) := by
  obtain ⟨-, -, hmark⟩ := h.mark_ne
  -- Escaping completes no reference that the text does not complete.
  have hescaped : t.reference? (escapeBy piece text ++ mark :: tail) = none := by
    by_contra hsome
    obtain ⟨⟨d, n⟩, href⟩ := Option.ne_none_iff_exists'.mp hsome
    obtain ⟨body, after, heq, hvalue, rfl⟩ := reference?_eq_some_iff.mp href
    obtain ⟨after, rfl⟩ := h.exists_of_escapeBy_eq (t.chars body d hvalue) heq
    rw [reference?_eq_some_iff.mpr ⟨body, after, rfl, hvalue, rfl⟩] at hnone
    cases hnone
  have htoken : token? '&' (escapeBy piece text ++ mark :: tail) = some ('&', 0) := by
    rw [h.ampersand, token, if_pos rfl, hescaped]
    rfl
  rw [escapeBy, h.plain _ (.inr (.inr rfl))]
  exact readUpTo?_self hmark.symm htoken

/-- An escaped text in front of its mark is read as the text with its references decoded. -/
theorem readUpTo?_escapeBy (text tail : List Char) :
    readUpTo? mark token? 0 (escapeBy piece text ++ mark :: tail) =
      some (t.decode text, mark :: tail) := by
  induction text using t.induction with
  | nil => exact readUpTo?_mark tail
  | reference hvalue _ ih =>
    rw [h.readUpTo?_reference hvalue, ih, decode_reference hvalue]
    rfl
  | self c rest hself ih =>
    rw [decode_self hself]
    by_cases hc : c = '&'
    · rw [hc, h.readUpTo?_ampersand (hself hc), ih]
      rfl
    · rw [escapeBy, List.append_assoc, h.reads _ _ hc, ih]
      rfl

end ReadsPieces

section Escaped

theorem escapeTextChars_eq (text : List Char) :
    escapeTextChars text = escapeBy (fun c next => (textChar c next).toList) text := by
  induction text with
  | nil => rfl
  | cons c rest ih => rw [escapeTextChars, ih, escapeBy]

theorem escapeAttribute_eq (s : String) :
    (escapeAttribute s).toList = escapeBy (fun c _ => (attributeChar c).toList) s.toList := by
  rw [toList_escapeAttribute]
  induction s.toList with
  | nil => rfl
  | cons c rest ih => rw [List.flatMap_cons, ih, escapeBy]

/-- A character that begins no expression, reference or mark is read as itself. -/
private theorem textToken?_self {c : Char} (hopen : c ≠ '\x7b') (hclose : c ≠ '\x7d')
    (hgreater : c ≠ '>') (hampersand : c ≠ '&') (rest : List Char) :
    t.textToken? c rest = some (c, 0) := by
  simp [textToken?, token, hopen, hclose, hgreater, hampersand]

private theorem textChar_plain {c : Char} (next : Option Char)
    (h : isReferenceChar c ∨ c = ';' ∨ c = '&') : (textChar c next).toList = [c] := by
  have hne : ∀ d ∈ ['\x7b', '\x7d', '<', '>', '"', '\'', '\x60', '/'], c ≠ d := by
    rintro d hd rfl
    simp only [List.mem_cons, List.not_mem_nil, or_false] at hd
    rcases hd with rfl | rfl | rfl | rfl | rfl | rfl | rfl | rfl <;> revert h <;> decide
  simp only [List.forall_mem_cons] at hne
  obtain ⟨h₁, h₂, h₃, h₄, h₅, h₆, h₇, h₈, -⟩ := hne
  simp [textChar, h₁, h₂, h₃, h₄, h₅, h₆, h₇, h₈]

/-- What running text holds for a character is read as that character. -/
private theorem readUpTo?_textChar {c : Char} (next : Option Char) (rest : List Char)
    (hampersand : c ≠ '&') :
    readUpTo? '<' t.textToken? 0 ((textChar c next).toList ++ rest) =
      (readUpTo? '<' t.textToken? 0 rest).map (Prod.map (c :: ·) id) := by
  have hexpr {d : Char} (hd : d ∈ ['\x7b', '\x7d', '\x60', '/']) :
      readUpTo? '<' t.textToken? 0 ('\x7b' :: (['\'', d, '\'', '\x7d'] ++ rest)) =
        (readUpTo? '<' t.textToken? 0 rest).map (Prod.map (d :: ·) id) := by
    apply readUpTo?_token (by decide)
    simp only [List.mem_cons, List.not_mem_nil, or_false] at hd
    rcases hd with rfl | rfl | rfl | rfl <;> rfl
  have hentity {d : Char} {body : List Char} (hvalue : t.value? body = some d) :
      readUpTo? '<' t.textToken? 0 ('&' :: (body ++ ';' :: rest)) =
        (readUpTo? '<' t.textToken? 0 rest).map (Prod.map (d :: ·) id) :=
    readUpTo?_entity (by decide) (fun _ => rfl) hvalue rest
  unfold textChar
  split
  · next h => exact h ▸ hexpr (by decide)
  split
  · next h => exact h ▸ hexpr (by decide)
  split
  · next h => exact h ▸ hentity t.less
  split
  · next h => exact h ▸ hentity t.greater
  split
  · next h => exact h ▸ hentity t.quotation
  split
  · next h => exact h ▸ hentity t.apostrophe
  split
  · next h => exact h ▸ hexpr (by decide)
  · next hopen hclose hless hgreater _ _ _ =>
    split
    · next h =>
      obtain ⟨h, -⟩ := Bool.and_eq_true_iff.mp h
      exact of_decide_eq_true h ▸ hexpr (by decide)
    · rw [Char.toString, String.toList_singleton]
      exact readUpTo?_self hless (textToken?_self hopen hclose hgreater hampersand rest)

theorem readsPieces_text (t : ReferenceTable) :
    t.ReadsPieces '<' t.textToken? fun c next => (textChar c next).toList where
  mark_ne := by decide
  ampersand _ := rfl
  plain := textChar_plain
  head := textChar_head
  reads := readUpTo?_textChar

private theorem attributeChar_self {c : Char} (hquote : c ≠ '"') (hbreak : c ≠ '\n') :
    (attributeChar c).toList = [c] := by
  rw [attributeChar, if_neg hquote, if_neg hbreak, Char.toString, String.toList_singleton]

private theorem attributeChar_head (c : Char) : ∃ first more,
    (attributeChar c).toList = first :: more ∧ (first = c ∨ first = '\x7b' ∨ first = '&') := by
  by_cases hquote : c = '"'
  · exact hquote ▸ ⟨_, _, rfl, .inr (.inr rfl)⟩
  · by_cases hbreak : c = '\n'
    · exact hbreak ▸ ⟨_, _, rfl, .inr (.inr rfl)⟩
    · exact ⟨c, [], attributeChar_self hquote hbreak, .inl rfl⟩

/-- What an attribute value holds for a character is read as that character. -/
private theorem readUpTo?_attributeChar {c : Char} (rest : List Char) (hampersand : c ≠ '&') :
    readUpTo? '"' (fun c rest => some (t.token c rest)) 0 ((attributeChar c).toList ++ rest) =
      (readUpTo? '"' (fun c rest => some (t.token c rest)) 0 rest).map (Prod.map (c :: ·) id) := by
  have hentity {d : Char} {body : List Char} (hvalue : t.value? body = some d) :
      readUpTo? '"' (fun c rest => some (t.token c rest)) 0 ('&' :: (body ++ ';' :: rest)) =
        (readUpTo? '"' (fun c rest => some (t.token c rest)) 0 rest).map (Prod.map (d :: ·) id) :=
    readUpTo?_entity (by decide) (fun _ => rfl) hvalue rest
  by_cases hquote : c = '"'
  · rw [hquote]
    exact hentity t.quotation
  · by_cases hbreak : c = '\n'
    · rw [hbreak]
      exact hentity t.lineFeed
    · rw [attributeChar_self hquote hbreak]
      exact readUpTo?_self hquote (by simp [token, hampersand])

theorem readsPieces_attribute (t : ReferenceTable) :
    t.ReadsPieces '"' (fun c rest => some (t.token c rest))
      fun c _ => (attributeChar c).toList where
  mark_ne := by decide
  ampersand _ := rfl
  plain {c} _ h := by
    apply attributeChar_self <;> rintro rfl <;> revert h <;> decide
  head c _ := attributeChar_head c
  reads _ := readUpTo?_attributeChar

end Escaped

end Reading

end ReferenceTable

section Faithful

variable (t : ReferenceTable)

/-- An escaped text in front of a tag is read as the text with its references decoded. -/
theorem readText?_escapeText (s : String) (tail : List Char) :
    t.readText? ((escapeText s).toList ++ '<' :: tail) = some (t.decode s.toList, '<' :: tail) := by
  rw [escapeText, String.toList_ofList, ReferenceTable.escapeTextChars_eq]
  exact t.readsPieces_text.readUpTo?_escapeBy s.toList tail

theorem readValue?_escapeAttribute (s : String) (tail : List Char) :
    t.readValue? ((escapeAttribute s).toList ++ '"' :: tail) =
      some (t.decode s.toList, '"' :: tail) := by
  rw [ReferenceTable.escapeAttribute_eq]
  exact t.readsPieces_attribute.readUpTo?_escapeBy s.toList tail

/-- Escaped texts are read back as they were exactly when they hold no reference, and such texts are
told apart by their escaped forms. -/
theorem escaping_faithful_iff (t : ReferenceTable) (s : String) (tail : List Char) :
    (t.readText? ((escapeText s).toList ++ '<' :: tail) = some (s.toList, '<' :: tail) ↔
        ¬ t.HoldsReference s.toList) ∧
      (t.readValue? ((escapeAttribute s).toList ++ '"' :: tail) = some (s.toList, '"' :: tail) ↔
        ¬ t.HoldsReference s.toList) ∧
      ∀ s', ¬ t.HoldsReference s.toList → ¬ t.HoldsReference s'.toList →
        escapeText s = escapeText s' ∨ escapeAttribute s = escapeAttribute s' → s = s' := by
  refine ⟨?_, ?_, fun s' hs hs' heq => ?_⟩
  · rw [readText?_escapeText, Option.some_inj, Prod.mk.injEq, and_iff_left rfl,
      ReferenceTable.decode_eq_self_iff]
  · rw [readValue?_escapeAttribute, Option.some_inj, Prod.mk.injEq, and_iff_left rfl,
      ReferenceTable.decode_eq_self_iff]
  · have hdecode : t.decode s.toList = t.decode s'.toList := by
      rcases heq with heq | heq
      · have hread := readText?_escapeText t s tail
        rw [heq, readText?_escapeText] at hread
        exact (Prod.mk.inj (Option.some_inj.mp hread)).1.symm
      · have hread := readValue?_escapeAttribute t s tail
        rw [heq, readValue?_escapeAttribute] at hread
        exact (Prod.mk.inj (Option.some_inj.mp hread)).1.symm
    rw [← String.toList_inj, ← ReferenceTable.decode_eq_self_iff.mpr hs, hdecode,
      ReferenceTable.decode_eq_self_iff.mpr hs']

/-- The names that all markup shares, and decimal numbers. -/
def basicReference? : List Char → Option Char
  | '#' :: digits =>
    if digits ≠ [] ∧ digits.all Char.isDigit then
      some (Char.ofNat (digits.foldl (fun n d => 10 * n + (d.toNat - '0'.toNat)) 0))
    else none
  | name =>
    [("quot".toList, '"'), ("apos".toList, '\''), ("lt".toList, '<'), ("gt".toList, '>'),
      ("amp".toList, '&')].lookup name

/-- The least that a reader of markup knows. -/
def ReferenceTable.basic : ReferenceTable where
  value? := basicReference?
  chars body c h d hd := by
    unfold basicReference? at h
    split at h
    · next digits =>
      split at h
      · next hdigits =>
        rcases List.mem_cons.mp hd with rfl | hd
        · rfl
        · have hdigit : d.isDigit := List.all_eq_true.mp hdigits.2 d hd
          simp [isReferenceChar, Char.isAlphanum, hdigit]
      · cases h
    · obtain ⟨before, after, htable, -⟩ := List.lookup_eq_some_iff.mp h
      have hbody : (body, c) ∈ [("quot".toList, '"'), ("apos".toList, '\''), ("lt".toList, '<'),
          ("gt".toList, '>'), ("amp".toList, '&')] := by
        rw [htable]
        exact List.mem_append_right _ List.mem_cons_self
      have hnames : ∀ entry ∈ [("quot".toList, '"'), ("apos".toList, '\''), ("lt".toList, '<'),
          ("gt".toList, '>'), ("amp".toList, '&')], entry.1.all isReferenceChar := by decide
      exact List.all_eq_true.mp (hnames _ hbody) d hd
  quotation := rfl
  apostrophe := rfl
  less := rfl
  greater := rfl
  lineFeed := by decide

theorem escaping_faithful_ampersands : let t := ReferenceTable.basic
    t.readText? ((escapeText "a && b < c").toList ++ '<' :: "/p>".toList) =
        some ("a && b < c".toList, '<' :: "/p>".toList) ∧
      t.readValue? ((escapeAttribute "a && b < c").toList ++ '"' :: "/p>".toList) =
        some ("a && b < c".toList, '"' :: "/p>".toList) ∧
      escapeText "a && b < c" ≠ escapeText "a & b < c" := by
  have hnone : ¬ ReferenceTable.basic.HoldsReference "a && b < c".toList := by decide
  have hother : ¬ ReferenceTable.basic.HoldsReference "a & b < c".toList := by decide
  obtain ⟨htext, hvalue, hinjective⟩ := escaping_faithful_iff .basic "a && b < c" "/p>".toList
  refine ⟨htext.mpr hnone, hvalue.mpr hnone, fun heq => ?_⟩
  have hsame := hinjective _ hnone hother (.inl heq)
  revert hsame
  decide

/-- A text that itself reads like an escaped one is written as it is, and read as what it spells. -/
theorem escaped_reference_read :
    escapeText "&lt;" = escapeText "<" ∧ escapeAttribute "&quot;" = escapeAttribute "\"" ∧
      ReferenceTable.basic.readText? ((escapeText "&lt;").toList ++ "</p>".toList) =
        some ("<".toList, "</p>".toList) ∧
      ReferenceTable.basic.readValue? ((escapeAttribute "&quot;").toList ++ "\" />".toList) =
        some ("\"".toList, "\" />".toList) := by
  decide

end Faithful

end Pagewright
