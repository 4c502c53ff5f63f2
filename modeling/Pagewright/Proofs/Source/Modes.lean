import Pagewright.Proofs.Source.Scanning
import Pagewright.Text.Blank

/-!
How the mode of the brace check develops, whatever braces are open. Right behind a backslash that
hides something it stands in a string of the source.
-/

namespace Pagewright

namespace Mode

/-- The mode after a character. -/
def next (mode : Mode) (c : Char) : Mode :=
  if mode.readsCode c then BraceScan.codeMode c else mode.after c

/-- The mode after a text. -/
def behind (mode : Mode) (text : List Char) : Mode := text.foldl next mode

def isString : Mode → Bool
  | quoted _ | escaped _ => true
  | _ => false

variable {mode last : Mode} {a b : List Char} {c : Char}

theorem behind_cons (mode : Mode) (c : Char) (rest : List Char) :
    mode.behind (c :: rest) = (mode.next c).behind rest := rfl

theorem behind_append (mode : Mode) (a b : List Char) :
    mode.behind (a ++ b) = (mode.behind a).behind b :=
  List.foldl_append

end Mode

namespace BraceScan.Hides

variable {mode last : Mode} {a b : List Char}

theorem behind (h : Hides mode a last) : mode.behind a = last := by
  induction h with
  | nil => rfl
  | @cons mode last c rest hmode _ ih =>
    rw [Mode.behind_cons, Mode.next, hmode]
    exact ih

theorem split (h : Hides mode (a ++ b) last) : ∃ middle, Hides mode a middle := by
  induction a generalizing mode with
  | nil => exact ⟨mode, .nil mode⟩
  | cons c a ih =>
    cases h with
    | cons hmode hrest =>
      obtain ⟨middle, hmiddle⟩ := ih hrest
      exact ⟨middle, .cons hmode hmiddle⟩

/-- Outside code no string begins. -/
theorem isString_eq_false (h : Hides mode a last) (hmode : mode.isString = false) :
    last.isString = false := by
  induction h with
  | nil => exact hmode
  | @cons mode last c rest hreads _ ih =>
    refine ih ?_
    cases mode with
    | code => cases hreads
    | quoted | escaped => cases hmode
    | slash | lineComment | blockComment | star =>
      simp only [Mode.after]
      (repeat' split) <;> rfl

end BraceScan.Hides

namespace Lexeme

open BraceScan

/-- A string, other than a template, that ends at the end of its line with a backslash and blanks
behind it, of which the backslash hides the first one. -/
def HidesMargin (lexemes : List Lexeme) : Prop :=
  ∃ mark body blanks, mark ≠ '\x60' ∧ LeavesOpen mark body ∧ blanks ≠ [] ∧
    (∀ c ∈ blanks, isBlank c ∧ c ≠ '\n') ∧
    quoted mark (body ++ '\\' :: blanks) ['\n'] ∈ lexemes

variable {l : Lexeme} {mark : Char} {body before inside after tail : List Char}

private theorem codeMode_eq {c : Char} (hc : c ∉ marks) :
    BraceScan.codeMode c = if c = '/' then .slash else .code := by
  rw [mem_marks] at hc
  simp_all [BraceScan.codeMode]

/-- Behind a lexeme a string begins as it does at the beginning of a source. -/
theorem Fits.behind (h : l.Fits (before ++ tail)) (htail : tail ≠ [])
    (hstring : (Mode.code.behind (l.text ++ before)).isString) :
    Mode.code.behind (l.text ++ before) = Mode.code.behind before := by
  have hafter : before ++ tail ≠ [] := List.append_ne_nil_of_right_ne_nil _ htail
  cases l with
  | code c =>
    obtain ⟨hmark, hcomment⟩ := h
    have hnext : Mode.code.next c = if c = '/' then .slash else .code := codeMode_eq hmark
    rw [text, List.singleton_append, Mode.behind_cons, hnext] at hstring ⊢
    by_cases hslash : c = '/'
    · rw [if_pos hslash] at hstring ⊢
      cases before with
      | nil => cases hstring
      | cons d before =>
        obtain ⟨hline, hblock⟩ := hcomment hslash
        have hd : Mode.slash.readsCode d := by simp_all [Mode.readsCode]
        rw [Mode.behind_cons, Mode.behind_cons, Mode.next, if_pos hd]
        rfl
    · rw [if_neg hslash]
  | quoted mark body ending =>
    obtain ⟨hmark, hbody, hending⟩ := h
    have hbegin : Mode.code.next mark = .quoted mark := by
      rcases mem_marks.mp hmark with rfl | rfl | rfl <;> rfl
    obtain ⟨last, hhides, hlast⟩ := hending.hides (ne_of_mem_of_not_mem hmark (by decide))
    obtain rfl := hlast.resolve_right hafter
    rw [text, List.cons_append, Mode.behind_cons, hbegin, Mode.behind_append,
      (hbody.hides.append hhides).behind]
  | lineComment body =>
    have hbegin : Mode.code.behind (lineComment body).text = .lineComment :=
      (hides_line h.1).behind
    rw [Mode.behind_append, hbegin] at hstring ⊢
    cases before with
    | nil => cases hstring
    | cons d before =>
      obtain rfl := h.2 d rfl
      rfl
  | blockComment body ending =>
    obtain ⟨last, hhides, hlast⟩ := h.2.hides h.1
    obtain rfl := hlast.resolve_right hafter
    have hbegin : Mode.code.behind (blockComment body ending).text = .code := hhides.behind
    rw [Mode.behind_append, hbegin]

/-- Where a string is left open behind a backslash, the backslash hides a character of it. -/
theorem LeavesOpen.exists_hidden {other : Char} (h : LeavesOpen other body)
    (hbody : body = before ++ tail) (hmode : (Mode.quoted other).behind before = .escaped mark) :
    other = mark ∧ ∃ shown c rest, before = shown ++ ['\\'] ∧ tail = c :: rest ∧
      LeavesOpen mark shown ∧ LeavesOpen mark rest := by
  induction h generalizing before with
  | nil =>
    obtain ⟨rfl, -⟩ := List.append_eq_nil_iff.mp hbody.symm
    cases hmode
  | @plain c rest hbackslash hmark hbreak hrest ih =>
    cases before with
    | nil => cases hmode
    | cons d before =>
      obtain ⟨rfl, hrest⟩ := List.cons.inj hbody
      have hnext : (Mode.quoted other).next c = .quoted other := by
        simp_all [Mode.next, Mode.readsCode, Mode.after]
      rw [Mode.behind_cons, hnext] at hmode
      obtain ⟨rfl, shown, d, rest, rfl, hd, hshown, hrest⟩ := ih hrest hmode
      exact ⟨rfl, c :: shown, d, rest, rfl, hd, .plain hbackslash hmark hbreak hshown, hrest⟩
  | @hidden c rest hrest ih =>
    rcases before with _ | ⟨d, _ | ⟨e, before⟩⟩
    · cases hmode
    · obtain ⟨rfl, rfl⟩ := List.cons.inj hbody
      obtain rfl := Mode.escaped.inj hmode
      exact ⟨rfl, [], c, rest, rfl, rfl, .nil, hrest⟩
    · obtain ⟨rfl, htail⟩ := List.cons.inj hbody
      obtain ⟨rfl, hrest⟩ := List.cons.inj htail
      obtain ⟨rfl, shown, d, rest, rfl, hd, hshown, hrest⟩ := ih hrest hmode
      exact ⟨rfl, '\\' :: c :: shown, d, rest, rfl, hd, .hidden c hshown, hrest⟩

/-- Within a comment no string begins. -/
private theorem not_isString_of_hides {last : Mode} (h : Hides .slash (before ++ inside) last) :
    ¬ (Mode.code.behind ('/' :: before)).isString := by
  obtain ⟨middle, hmiddle⟩ := h.split
  have hbehind : Mode.code.behind ('/' :: before) = middle := hmiddle.behind
  rw [hbehind, hmiddle.isString_eq_false rfl]
  exact Bool.false_ne_true

/-- Within a lexeme a backslash hides something only in a string. -/
theorem Fits.exists_hidden (h : l.Fits after) (htext : l.text = before ++ inside)
    (hinside : inside ≠ []) (hmode : Mode.code.behind before = .escaped mark) :
    mark ∈ marks ∧ ∃ shown c rest ending, l = quoted mark (shown ++ '\\' :: c :: rest) ending ∧
      inside = c :: rest ++ ending ∧ LeavesOpen mark shown ∧ LeavesOpen mark rest ∧
      EndsString mark ending after := by
  have hstring : (Mode.code.behind before).isString := by
    rw [hmode]
    rfl
  have hbefore : before ≠ [] := by
    rintro rfl
    cases hmode
  obtain ⟨d, before, rfl⟩ := List.exists_cons_of_ne_nil hbefore
  cases l with
  | code c =>
    obtain ⟨rfl, hnil⟩ := List.cons.inj htext
    exact absurd (List.append_eq_nil_iff.mp hnil.symm).2 hinside
  | lineComment body =>
    obtain ⟨rfl, hrest⟩ := List.cons.inj htext
    have hhides : Hides .slash ('/' :: body) .lineComment := .cons rfl (hides_line h.1)
    exact absurd hstring (not_isString_of_hides (hrest ▸ hhides))
  | blockComment body ending =>
    obtain ⟨rfl, hrest⟩ := List.cons.inj htext
    obtain ⟨last, hlast, -⟩ := h.2.hides h.1
    have hhides : Hides .slash ('*' :: (body ++ ending)) last := .cons rfl hlast
    exact absurd hstring (not_isString_of_hides (hrest ▸ hhides))
  | quoted other body ending =>
    obtain ⟨hmark, hbody, hending⟩ := h
    obtain ⟨rfl, hrest⟩ := List.cons.inj htext
    have hbegin : Mode.code.next other = .quoted other := by
      rcases mem_marks.mp hmark with rfl | rfl | rfl <;> rfl
    rw [Mode.behind_cons, hbegin] at hmode
    rcases List.append_eq_append_iff.mp hrest with ⟨m, rfl, hm⟩ | ⟨m, rfl, hm⟩
    · -- The string has been left open up to its end, which is one character at most.
      have hlength : ending.length ≤ 1 := by cases hending <;> simp
      have hnil : m = [] := by
        have hpositive := List.length_pos_iff.mpr hinside
        rw [hm, List.length_append] at hlength
        exact List.eq_nil_of_length_eq_zero (by omega)
      rw [hnil, List.append_nil, hbody.hides.behind] at hmode
      cases hmode
    · obtain ⟨rfl, shown, c, rest, rfl, rfl, hshown, hrest⟩ := hbody.exists_hidden rfl hmode
      exact ⟨hmark, shown, c, rest, ending, by simp, hm, hshown, hrest, hending⟩

theorem LeavesOpen.of_blank (hmark : mark ∈ marks) (h : ∀ c ∈ body, isBlank c ∧ c ≠ '\n') :
    LeavesOpen mark body := by
  induction body with
  | nil => exact .nil
  | cons c rest ih =>
    obtain ⟨⟨hblank, hbreak⟩, hrest⟩ := List.forall_mem_cons.mp h
    refine .plain ?_ ?_ (fun hc => absurd hc hbreak) (ih hrest)
    · rintro rfl
      cases hblank
    · rintro rfl
      rcases mem_marks.mp hmark with rfl | rfl | rfl <;> cases hblank

/-- Of a piece and what follows, a text either has the whole piece or leaves some of it. -/
private theorem append_split {a b c d : List Char} (h : a ++ b = c ++ d) :
    (∃ m, c = a ++ m ∧ b = m ++ d) ∨ ∃ m, m ≠ [] ∧ a = c ++ m ∧ d = m ++ b := by
  rcases List.append_eq_append_iff.mp h with hlong | ⟨m, rfl, rfl⟩
  · exact .inl hlong
  by_cases hm : m = []
  · exact .inl ⟨[], by simp [hm], by simp [hm]⟩
  · exact .inr ⟨m, hm, rfl, rfl⟩

/-- The check stands right behind a backslash in front of the blanks at the end of a line only where
a string hides such a blank. -/
theorem Lexed.hidesMargin {lexemes : List Lexeme} (h : Lexed lexemes) {blanks : List Char}
    (hsource : source lexemes = before ++ (blanks ++ '\n' :: after))
    (hmode : Mode.code.behind before = .escaped mark) (hmark : mark ≠ '\x60') (hne : blanks ≠ [])
    (hblanks : ∀ c ∈ blanks, isBlank c ∧ c ≠ '\n') : HidesMargin lexemes := by
  induction h generalizing before with
  | nil => simp [source] at hsource
  | @cons l rest hl _ ih =>
    rw [source_cons] at hsource
    rcases append_split hsource with ⟨m, rfl, hrest⟩ | ⟨m, hm, htext, hrest⟩
    · rw [hrest] at hl
      rw [hl.behind (by simp) (by rw [hmode]; rfl)] at hmode
      obtain ⟨mark, body, blanks, hother, hbody, hfull, hall, hmem⟩ := ih hrest hmode
      exact ⟨mark, body, blanks, hother, hbody, hfull, hall, .tail l hmem⟩
    · obtain ⟨hmarks, shown, c, body, ending, rfl, rfl, hshown, hbody, hending⟩ :=
        hl.exists_hidden htext hm hmode
      obtain ⟨d, blanks, rfl⟩ := List.exists_cons_of_ne_nil hne
      rw [List.cons_append, List.cons_append, List.cons_append, List.append_assoc] at hrest
      obtain ⟨rfl, htail⟩ := List.cons.inj hrest
      have hplain : LeavesOpen mark blanks :=
        .of_blank hmarks (List.forall_mem_cons.mp hblanks).2
      obtain ⟨rfl, rfl, -⟩ := string_unique (ne_of_mem_of_not_mem hmarks (by decide)) hplain
        (.lineBreak hmark after) hbody hending htail
      exact ⟨mark, shown, d :: blanks, hmark, hshown, hne, hblanks, List.mem_cons_self⟩

end Lexeme

end Pagewright
