/-!
A source split from left to right into code, strings and comments. Every source can be split in
exactly one way.
-/

namespace Pagewright

/-- A piece of a source: a character of code, a string with its mark and what ends it, a comment up
to the end of the line, or a comment with what ends it. -/
inductive Lexeme where
  | code (c : Char)
  | quoted (mark : Char) (body ending : List Char)
  | lineComment (body : List Char)
  | blockComment (body ending : List Char)
deriving DecidableEq

namespace Lexeme

def text : Lexeme → List Char
  | code c => [c]
  | quoted mark body ending => mark :: (body ++ ending)
  | lineComment body => '/' :: '/' :: body
  | blockComment body ending => '/' :: '*' :: (body ++ ending)

def source (lexemes : List Lexeme) : List Char := lexemes.flatMap text

def marks : List Char := ['"', '\'', '\x60']

/-- Characters that leave a string open: not its mark, nor, except in a template, a line break. A
backslash hides the character behind it, whatever that is. -/
inductive LeavesOpen (mark : Char) : List Char → Prop where
  | nil : LeavesOpen mark []
  | plain {c : Char} {rest : List Char} (hbackslash : c ≠ '\\') (hmark : c ≠ mark)
      (hbreak : c = '\n' → mark = '\x60') : LeavesOpen mark rest → LeavesOpen mark (c :: rest)
  | hidden (c : Char) {rest : List Char} : LeavesOpen mark rest →
      LeavesOpen mark ('\\' :: c :: rest)

/-- How a string ends in front of the rest of a source: with its mark, with a line break unless it
is a template, or with the source, perhaps on a backslash that has nothing to hide. -/
inductive EndsString (mark : Char) : (ending after : List Char) → Prop where
  | mark (after : List Char) : EndsString mark [mark] after
  | lineBreak (hmark : mark ≠ '\x60') (after : List Char) : EndsString mark ['\n'] after
  | sourceEnd : EndsString mark [] []
  | backslash : EndsString mark ['\\'] []

def commentEnd : List Char := ['*', '/']

/-- How a block comment ends in front of the rest of a source: with its end mark or with the
source. -/
inductive EndsComment : (ending after : List Char) → Prop where
  | mark (after : List Char) : EndsComment commentEnd after
  | sourceEnd : EndsComment [] []

/-- Whether a source that goes on with some text can begin with the lexeme. -/
def Fits (after : List Char) : Lexeme → Prop
  | code c => c ∉ marks ∧ (c = '/' → after.head? ≠ some '/' ∧ after.head? ≠ some '*')
  | quoted mark body ending => mark ∈ marks ∧ LeavesOpen mark body ∧ EndsString mark ending after
  | lineComment body => '\n' ∉ body ∧ ∀ c ∈ after.head?, c = '\n'
  | blockComment body ending => ¬ commentEnd <:+: body ∧ EndsComment ending after

/-- Each lexeme fits what comes behind it. -/
inductive Lexed : List Lexeme → Prop where
  | nil : Lexed []
  | cons {l : Lexeme} {rest : List Lexeme} : l.Fits (source rest) → Lexed rest → Lexed (l :: rest)

theorem source_cons (l : Lexeme) (rest : List Lexeme) :
    source (l :: rest) = l.text ++ source rest :=
  List.flatMap_cons

theorem source_append (left right : List Lexeme) :
    source (left ++ right) = source left ++ source right :=
  List.flatMap_append

theorem mem_marks {mark : Char} : mark ∈ marks ↔ mark = '"' ∨ mark = '\'' ∨ mark = '\x60' := by
  simp [marks]

section Existence

private theorem exists_string (mark : Char) : ∀ text : List Char, ∃ body ending after,
    text = body ++ ending ++ after ∧ LeavesOpen mark body ∧ EndsString mark ending after
  | [] => ⟨[], [], [], rfl, .nil, .sourceEnd⟩
  | c :: rest => by
    by_cases hbackslash : c = '\\'
    · subst hbackslash
      cases rest with
      | nil => exact ⟨[], ['\\'], [], rfl, .nil, .backslash⟩
      | cons c rest =>
        obtain ⟨body, ending, after, rfl, hbody, hending⟩ := exists_string mark rest
        exact ⟨'\\' :: c :: body, ending, after, rfl, .hidden c hbody, hending⟩
    by_cases hmark : c = mark
    · exact ⟨[], [mark], rest, by rw [hmark]; rfl, .nil, .mark rest⟩
    by_cases hbreak : c = '\n' → mark = '\x60'
    · obtain ⟨body, ending, after, rfl, hbody, hending⟩ := exists_string mark rest
      exact ⟨c :: body, ending, after, rfl, .plain hbackslash hmark hbreak hbody, hending⟩
    · obtain ⟨rfl, htemplate⟩ := Classical.not_imp.mp hbreak
      exact ⟨[], ['\n'], rest, rfl, .nil, .lineBreak htemplate rest⟩

/-- A character in front of a text brings an end mark only as the star of one. -/
theorem commentEnd_infix_cons {c : Char} {text : List Char} :
    commentEnd <:+: c :: text ↔ (c = '*' ∧ text.head? = some '/') ∨ commentEnd <:+: text := by
  rw [List.infix_cons_iff, commentEnd, List.cons_prefix_cons, eq_comm]
  cases text with
  | nil => simp
  | cons d text => simp [eq_comm]

private theorem exists_comment (text : List Char) : ∃ body ending after,
    text = body ++ ending ++ after ∧ ¬ commentEnd <:+: body ∧ EndsComment ending after := by
  induction text with
  | nil => exact ⟨[], [], [], rfl, by decide, .sourceEnd⟩
  | cons c rest ih =>
    by_cases hend : c = '*' ∧ rest.head? = some '/'
    · obtain ⟨rfl, hrest⟩ := hend
      obtain ⟨after, rfl⟩ := List.head?_eq_some_iff.mp hrest
      exact ⟨[], commentEnd, after, rfl, by decide, .mark after⟩
    · obtain ⟨body, ending, after, rfl, hbody, hending⟩ := ih
      refine ⟨c :: body, ending, after, rfl, fun h => ?_, hending⟩
      rcases commentEnd_infix_cons.mp h with ⟨hc, hslash⟩ | h
      · exact hend ⟨hc, by simp [hslash]⟩
      · exact hbody h

/-- Something can be split off at the beginning of every source. -/
private theorem exists_fits (c : Char) (rest : List Char) : ∃ l : Lexeme, ∃ after,
    c :: rest = l.text ++ after ∧ after.length ≤ rest.length ∧ l.Fits after := by
  by_cases hmark : c ∈ marks
  · obtain ⟨body, ending, after, rfl, hbody, hending⟩ := exists_string c rest
    exact ⟨quoted c body ending, after, rfl, by simp; omega, hmark, hbody, hending⟩
  by_cases hcomment : c = '/' ∧ (rest.head? = some '/' ∨ rest.head? = some '*')
  · obtain ⟨rfl, h | h⟩ := hcomment
    all_goals obtain ⟨rest, rfl⟩ := List.head?_eq_some_iff.mp h
    · have hsplit : rest.takeWhile (· ≠ '\n') ++ rest.dropWhile (· ≠ '\n') = rest :=
        List.takeWhile_append_dropWhile
      refine ⟨lineComment (rest.takeWhile (· ≠ '\n')), rest.dropWhile (· ≠ '\n'), ?_, ?_, ?_, ?_⟩
      · rw [text, List.cons_append, List.cons_append, hsplit]
      · exact Nat.le_succ_of_le (List.dropWhile_suffix _).length_le
      · exact fun hm => by simpa using List.all_eq_true.mp List.all_takeWhile _ hm
      · intro c hc
        have := List.head?_dropWhile_not (fun c : Char => decide (c ≠ '\n')) rest
        simp_all
    · obtain ⟨body, ending, after, rfl, hbody, hending⟩ := exists_comment rest
      exact ⟨blockComment body ending, after, by simp [text], by simp; omega, hbody, hending⟩
  · refine ⟨code c, rest, rfl, Nat.le_refl _, hmark, fun hc => ?_⟩
    exact not_or.mp fun h => hcomment ⟨hc, h⟩

theorem exists_lexed (text : List Char) : ∃ lexemes, source lexemes = text ∧ Lexed lexemes := by
  match text with
  | [] => exact ⟨[], rfl, .nil⟩
  | c :: rest =>
    obtain ⟨l, after, hsplit, hshort, hfits⟩ := exists_fits c rest
    obtain ⟨lexemes, rfl, hlexed⟩ := exists_lexed after
    exact ⟨l :: lexemes, by rw [source_cons, hsplit], .cons hfits hlexed⟩
termination_by text.length
decreasing_by exact Nat.lt_succ_of_le hshort

end Existence

section Uniqueness

variable {mark : Char} {body body' ending ending' after after' more : List Char}

/-- What leaves a string open does not begin with an end of it. -/
private theorem EndsString.eq_nil (hmark : mark ≠ '\\') (hending : EndsString mark ending after)
    (hbody : LeavesOpen mark body) (h : ending ++ after = body ++ more) : body = [] := by
  cases hbody with
  | nil => rfl
  | plain hbackslash hother hbreak _ => cases hending <;> grind
  | hidden c _ => cases hending <;> grind

private theorem EndsString.unique (hending : EndsString mark ending after)
    (hending' : EndsString mark ending' after') (h : ending ++ after = ending' ++ after') :
    ending = ending' ∧ after = after' := by
  cases hending <;> cases hending' <;> grind

theorem string_unique (hmark : mark ≠ '\\') (hbody : LeavesOpen mark body)
    (hending : EndsString mark ending after) (hbody' : LeavesOpen mark body')
    (hending' : EndsString mark ending' after')
    (h : body ++ (ending ++ after) = body' ++ (ending' ++ after')) :
    body = body' ∧ ending = ending' ∧ after = after' := by
  induction hbody generalizing body' with
  | nil =>
    obtain rfl := hending.eq_nil hmark hbody' h
    exact ⟨rfl, hending.unique hending' h⟩
  | plain hbackslash hother hbreak hrest ih =>
    cases hbody' with
    | nil => cases hending'.eq_nil hmark (.plain hbackslash hother hbreak hrest) h.symm
    | plain _ _ _ hrest' =>
      obtain ⟨rfl, htail⟩ := List.cons.inj h
      obtain ⟨rfl, hends⟩ := ih hrest' htail
      exact ⟨rfl, hends⟩
    | hidden => exact absurd (List.cons.inj h).1 hbackslash
  | hidden c hrest ih =>
    cases hbody' with
    | nil => cases hending'.eq_nil hmark (.hidden c hrest) h.symm
    | plain hbackslash _ _ _ => exact absurd (List.cons.inj h).1.symm hbackslash
    | hidden c' hrest' =>
      obtain ⟨rfl, htail⟩ := List.cons.inj (List.cons.inj h).2
      obtain ⟨rfl, hends⟩ := ih hrest' htail
      exact ⟨rfl, hends⟩

/-- A comment does not go on behind an end mark. -/
private theorem EndsComment.eq_nil (hending : EndsComment ending after)
    (hbody : ¬ commentEnd <:+: body ++ more) (hending' : EndsComment ending' after')
    (h : ending ++ after = more ++ (ending' ++ after')) : more = [] := by
  cases hending with
  | sourceEnd => exact (List.append_eq_nil_iff.mp h.symm).1
  | mark =>
    match more with
    | [] => rfl
    | [c] => cases hending' <;> simp_all [commentEnd]
    | c :: d :: more =>
      obtain ⟨rfl, htail⟩ := List.cons.inj h
      obtain ⟨rfl, -⟩ := List.cons.inj htail
      exact absurd ⟨body, more, by simp [commentEnd]⟩ hbody

private theorem comment_unique (hbody : ¬ commentEnd <:+: body) (hending : EndsComment ending after)
    (hbody' : ¬ commentEnd <:+: body') (hending' : EndsComment ending' after')
    (h : body ++ (ending ++ after) = body' ++ (ending' ++ after')) :
    body = body' ∧ ending = ending' ∧ after = after' := by
  have heq : body = body' := by
    rcases List.append_eq_append_iff.mp h with ⟨more, rfl, hmore⟩ | ⟨more, rfl, hmore⟩
    · rw [hending.eq_nil hbody' hending' hmore, List.append_nil]
    · rw [hending'.eq_nil hbody hending hmore, List.append_nil]
  subst heq
  have h := List.append_cancel_left h
  cases hending <;> cases hending' <;> simp_all [commentEnd]

/-- A line comment takes all there is up to the next line break. -/
private theorem takeWhile_line (hbody : '\n' ∉ body) (hafter : ∀ c ∈ after.head?, c = '\n') :
    (body ++ after).takeWhile (· ≠ '\n') = body := by
  rw [List.takeWhile_append_of_pos fun c hc => by simpa using ne_of_mem_of_not_mem hc hbody]
  cases after <;> simp_all

private theorem line_unique (hbody : '\n' ∉ body) (hafter : ∀ c ∈ after.head?, c = '\n')
    (hbody' : '\n' ∉ body') (hafter' : ∀ c ∈ after'.head?, c = '\n')
    (h : body ++ after = body' ++ after') : body = body' ∧ after = after' := by
  obtain rfl : body = body' := by
    rw [← takeWhile_line hbody hafter, h, takeWhile_line hbody' hafter']
  exact ⟨rfl, List.append_cancel_left h⟩

/-- What a source begins with decides which lexeme is split off. -/
private theorem Fits.unique {l l' : Lexeme} (hl : l.Fits after) (hl' : l'.Fits after')
    (h : l.text ++ after = l'.text ++ after') : l = l' ∧ after = after' := by
  cases l <;> cases l'
  case code.code => simpa [text] using h
  case quoted.quoted mark body ending _ body' ending' =>
    simp only [text, List.cons_append, List.append_assoc] at h
    obtain ⟨rfl, htail⟩ := List.cons.inj h
    obtain ⟨hmark, hbody, hending⟩ := hl
    obtain ⟨-, hbody', hending'⟩ := hl'
    have hbackslash : mark ≠ '\\' := ne_of_mem_of_not_mem hmark (by decide)
    obtain ⟨rfl, rfl, hafter⟩ := string_unique hbackslash hbody hending hbody' hending' htail
    exact ⟨rfl, hafter⟩
  case lineComment.lineComment =>
    obtain ⟨rfl, hafter⟩ := line_unique hl.1 hl.2 hl'.1 hl'.2 (List.cons.inj (List.cons.inj h).2).2
    exact ⟨rfl, hafter⟩
  case blockComment.blockComment =>
    simp only [text, List.cons_append, List.append_assoc] at h
    obtain ⟨rfl, rfl, hafter⟩ :=
      comment_unique hl.1 hl.2 hl'.1 hl'.2 (List.cons.inj (List.cons.inj h).2).2
    exact ⟨rfl, hafter⟩
  -- Two different kinds differ in their first two characters.
  all_goals grind [Fits, text, mem_marks]

/-- A source can be split in one way only. -/
theorem Lexed.unique {a b : List Lexeme} (ha : Lexed a) (hb : Lexed b)
    (h : source a = source b) : a = b := by
  induction ha generalizing b with
  | nil =>
    cases hb with
    | nil => rfl
    | @cons l _ _ _ => cases l <;> cases h
  | @cons l _ hl _ ih =>
    cases hb with
    | nil => cases l <;> cases h
    | cons hl' hrest' =>
      rw [source_cons, source_cons] at h
      obtain ⟨rfl, hrest⟩ := hl.unique hl' h
      rw [ih hrest' hrest]

end Uniqueness

end Lexeme

end Pagewright
