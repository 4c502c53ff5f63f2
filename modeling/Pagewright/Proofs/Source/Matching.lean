import Pagewright.Proofs.Source.Scanning

/-!
The verdict of the brace check. A source passes exactly when the braces in its code balance.
Otherwise the check reports the first closing brace without a partner, or, if there is none, the
last opening brace without one.
-/

namespace Pagewright

namespace Lexeme

/-- Lexemes whose braces match. -/
inductive Balanced : List Lexeme → Prop where
  | nil : Balanced []
  | other {l : Lexeme} {rest : List Lexeme} (hopen : l ≠ .code '{') (hclose : l ≠ .code '}') :
      Balanced rest → Balanced (l :: rest)
  | pair {inner rest : List Lexeme} : Balanced inner → Balanced rest →
      Balanced (.code '{' :: (inner ++ .code '}' :: rest))

/-- Whether a closing brace behind the lexemes has a partner in them. -/
def HasOpening (before : List Lexeme) : Prop :=
  ∃ outer inner, before = outer ++ .code '{' :: inner ∧ Balanced inner

/-- Whether an opening brace in front of the lexemes has a partner in them. -/
def HasClosing (after : List Lexeme) : Prop :=
  ∃ inner outer, after = inner ++ .code '}' :: outer ∧ Balanced inner

/-- Behind some of the lexemes stands a closing brace without a partner. -/
def LoneClose (lexemes before : List Lexeme) : Prop :=
  (∃ after, lexemes = before ++ .code '}' :: after) ∧ ¬ HasOpening before

/-- Behind some of the lexemes stands an opening brace without a partner. -/
def LoneOpen (lexemes before : List Lexeme) : Prop :=
  ∃ after, lexemes = before ++ .code '{' :: after ∧ ¬ HasClosing after

def FirstLoneClose (lexemes before : List Lexeme) : Prop :=
  LoneClose lexemes before ∧ ∀ other, LoneClose lexemes other → before.length ≤ other.length

def LastLoneOpen (lexemes before : List Lexeme) : Prop :=
  LoneOpen lexemes before ∧ ∀ other, LoneOpen lexemes other → other.length ≤ before.length

/-- The line in which a source goes on. -/
def lineBehind (before : List Lexeme) : Nat := 1 + (source before).count '\n'

theorem lineBehind_concat (before : List Lexeme) (l : Lexeme) :
    lineBehind (before ++ [l]) = lineBehind before + l.text.count '\n' := by
  rw [lineBehind, source_append, List.count_append, ← Nat.add_assoc]
  simp [lineBehind, source]

variable {l l' : Lexeme} {before inner outer rest after a b c d : List Lexeme}

/-- Two lexemes of a source, one of them given by what is around it. -/
private theorem split_eq_split (h : a ++ l :: b = c ++ l' :: d) :
    (∃ m, a = c ++ l' :: m ∧ d = m ++ l :: b) ∨ (a = c ∧ l = l' ∧ b = d) ∨
      (∃ m, c = a ++ l :: m ∧ b = m ++ l' :: d) := by
  rcases List.append_eq_append_iff.mp h with ⟨m, rfl, hm⟩ | ⟨m, rfl, hm⟩
  · cases m with
    | nil =>
      obtain ⟨rfl, rfl⟩ := List.cons.inj hm
      exact .inr (.inl ⟨(List.append_nil _).symm, rfl, rfl⟩)
    | cons x m =>
      obtain ⟨rfl, rfl⟩ := List.cons.inj hm
      exact .inr (.inr ⟨m, rfl, rfl⟩)
  · cases m with
    | nil =>
      obtain ⟨rfl, rfl⟩ := List.cons.inj hm
      exact .inr (.inl ⟨List.append_nil _, rfl, rfl⟩)
    | cons x m =>
      obtain ⟨rfl, rfl⟩ := List.cons.inj hm
      exact .inl ⟨m, rfl, rfl⟩

theorem HasOpening.prepend (h : HasOpening b) (a : List Lexeme) : HasOpening (a ++ b) := by
  obtain ⟨outer, inner, rfl, hinner⟩ := h
  exact ⟨a ++ outer, inner, by rw [List.append_assoc], hinner⟩

theorem HasClosing.append (h : HasClosing a) (b : List Lexeme) : HasClosing (a ++ b) := by
  obtain ⟨inner, outer, rfl, hinner⟩ := h
  exact ⟨inner, outer ++ b, by simp, hinner⟩

namespace Balanced

theorem append (ha : Balanced a) (hb : Balanced b) : Balanced (a ++ b) := by
  induction ha with
  | nil => exact hb
  | other hopen hclose _ ih => exact .other hopen hclose ih
  | pair hinner _ _ ih =>
    rw [List.cons_append, List.append_assoc, List.cons_append]
    exact .pair hinner ih

/-- In balanced lexemes every closing brace has a partner. -/
theorem hasOpening (h : Balanced (before ++ .code '}' :: after)) : HasOpening before := by
  generalize hall : before ++ .code '}' :: after = all at h
  induction h generalizing before after with
  | nil => cases before <;> cases hall
  | other hopen hclose _ ih =>
    cases before with
    | nil => exact absurd (List.cons.inj hall).1.symm hclose
    | cons l before => exact (ih (List.cons.inj hall).2).prepend [l]
  | @pair inner rest hinner hrest ihinner ihrest =>
    cases before with
    | nil => cases hall
    | cons l before =>
      obtain ⟨rfl, htail⟩ := List.cons.inj hall
      obtain ⟨m, rfl, hm⟩ | ⟨rfl, -, -⟩ | ⟨m, rfl, -⟩ := split_eq_split htail
      · rw [List.append_cons]
        exact (ihrest hm.symm).prepend (.code '{' :: (inner ++ [.code '}']))
      · exact ⟨[], before, rfl, hinner⟩
      · exact (ihinner rfl).prepend [.code '{']

/-- In balanced lexemes every opening brace has a partner. -/
theorem hasClosing (h : Balanced (before ++ .code '{' :: after)) : HasClosing after := by
  generalize hall : before ++ .code '{' :: after = all at h
  induction h generalizing before after with
  | nil => cases before <;> cases hall
  | other hopen hclose _ ih =>
    cases before with
    | nil => exact absurd (List.cons.inj hall).1.symm hopen
    | cons l before => exact ih (List.cons.inj hall).2
  | @pair inner rest hinner hrest ihinner ihrest =>
    cases before with
    | nil =>
      obtain ⟨-, rfl⟩ := List.cons.inj hall
      exact ⟨inner, rest, rfl, hinner⟩
    | cons l before =>
      obtain ⟨rfl, htail⟩ := List.cons.inj hall
      obtain ⟨m, rfl, hm⟩ | ⟨-, hbrace, -⟩ | ⟨m, rfl, rfl⟩ := split_eq_split htail
      · exact ihrest hm.symm
      · cases hbrace
      · exact (ihinner rfl).append _

/-- What stands behind an opening brace of balanced lexemes is not balanced itself: the brace that
closes it would also close another one behind it, and so on inwards. -/
private theorem not_balanced {outer inner : List Lexeme} (hinner : Balanced inner) :
    ¬ Balanced (outer ++ .code '{' :: inner) := by
  intro h
  obtain ⟨middle, _, hsplit, hmiddle⟩ := h.hasClosing
  obtain ⟨_, innermost, rfl, hinnermost⟩ := (hsplit ▸ hinner).hasOpening
  have hshort : innermost.length < inner.length := by
    rw [hsplit]
    simp
    omega
  exact not_balanced hinnermost hmiddle
termination_by inner.length

theorem not_hasOpening (h : Balanced before) : ¬ HasOpening before := by
  rintro ⟨outer, inner, rfl, hinner⟩
  exact not_balanced hinner h

theorem not_hasClosing (h : Balanced after) : ¬ HasClosing after := by
  rintro ⟨inner, outer, rfl, hinner⟩
  exact not_hasOpening hinner h.hasOpening

end Balanced

/-- Lexemes behind which some braces are open, with their lines from the innermost out. Between the
open braces the lexemes are balanced, so no closing brace among them lacks a partner. -/
inductive Stacked : List Lexeme → List Nat → Prop where
  | outermost {before : List Lexeme} : Balanced before → Stacked before []
  | within {before inner : List Lexeme} {opened : List Nat} : Stacked before opened →
      Balanced inner → Stacked (before ++ .code '{' :: inner) (lineBehind before :: opened)

namespace Stacked

variable {opened : List Nat} {line : Nat}

theorem append (h : Stacked a opened) (hb : Balanced b) : Stacked (a ++ b) opened := by
  cases h with
  | outermost ha => exact .outermost (ha.append hb)
  | within houter hinner =>
    rw [List.append_assoc, List.cons_append]
    exact .within houter (hinner.append hb)

theorem close (h : Stacked before (line :: opened)) : Stacked (before ++ [.code '}']) opened := by
  cases h with
  | within houter hinner =>
    rw [List.append_assoc, List.cons_append]
    exact houter.append (.pair hinner .nil)

/-- Every closing brace that has been read has a partner. -/
theorem hasOpening (h : Stacked (before ++ .code '}' :: after) opened) : HasOpening before := by
  generalize hall : before ++ .code '}' :: after = all at h
  induction h generalizing before after with
  | outermost hbalanced => exact (hall ▸ hbalanced).hasOpening
  | @within outer inner opened _ hinner ih =>
    obtain ⟨m, rfl, rfl⟩ | ⟨-, hbrace, -⟩ | ⟨m, rfl, -⟩ := split_eq_split hall
    · rw [List.append_cons]
      exact hinner.hasOpening.prepend _
    · cases hbrace
    · exact ih rfl

end Stacked

/-- What the check has to say about a source. -/
inductive Verdict (lexemes : List Lexeme) : Except (Nat × BraceFault) Unit → Prop where
  | balanced : Balanced lexemes → Verdict lexemes (.ok ())
  | unexpected {before : List Lexeme} : FirstLoneClose lexemes before →
      Verdict lexemes (.error (lineBehind before, .unexpectedClose))
  | unclosed {before : List Lexeme} : (∀ other, ¬ LoneClose lexemes other) →
      LastLoneOpen lexemes before → Verdict lexemes (.error (lineBehind before, .unclosedOpen))

theorem Balanced.firstLoneClose (h : Balanced before) (after : List Lexeme) :
    FirstLoneClose (before ++ .code '}' :: after) before := by
  refine ⟨⟨⟨after, rfl⟩, h.not_hasOpening⟩, fun other ⟨⟨after', hsplit⟩, hlone⟩ => ?_⟩
  obtain ⟨m, rfl, rfl⟩ | ⟨rfl, -, -⟩ | ⟨m, rfl, -⟩ := split_eq_split hsplit
  · exact absurd h.hasOpening hlone
  · exact Nat.le_refl _
  · simp

theorem Balanced.lastLoneOpen (h : Balanced inner) (outer : List Lexeme) :
    LastLoneOpen (outer ++ .code '{' :: inner) outer := by
  refine ⟨⟨inner, rfl, h.not_hasClosing⟩, fun other ⟨after, hsplit, hlone⟩ => ?_⟩
  obtain ⟨m, rfl, rfl⟩ | ⟨rfl, -, -⟩ | ⟨m, rfl, rfl⟩ := split_eq_split hsplit
  · simp
  · exact Nat.le_refl _
  · exact absurd h.hasClosing hlone

/-- Having read some lexemes, the check says about all of them what there is to say. -/
theorem Stacked.verdict {opened : List Nat} (hrest : Lexed rest) (h : Stacked before opened) :
    Verdict (before ++ rest)
      (BraceScan.verdict ⟨.code, lineBehind before, opened⟩ (source rest)) := by
  -- The induction is on what is left to read; each lexeme goes over to those that have been read.
  induction hrest generalizing before opened with
  | nil =>
    rw [List.append_nil]
    cases h with
    | outermost hbefore => exact .balanced hbefore
    | within houter hinner =>
      refine .unclosed (fun other ⟨⟨after, hsplit⟩, hlone⟩ => hlone ?_) (hinner.lastLoneOpen _)
      exact (hsplit ▸ Stacked.within houter hinner).hasOpening
  | @cons l rest hl _ ih =>
    rw [source_cons]
    by_cases hopen : l = .code '{'
    · subst hopen
      have hline : lineBehind (before ++ [.code '{']) = lineBehind before := lineBehind_concat ..
      have hnext := ih (Stacked.within h .nil)
      rw [hline] at hnext
      rw [List.append_cons, text, List.cons_append, List.nil_append, verdict_open]
      exact hnext
    by_cases hclose : l = .code '}'
    · subst hclose
      have hline : lineBehind (before ++ [.code '}']) = lineBehind before := lineBehind_concat ..
      rw [text, List.cons_append, List.nil_append]
      cases opened with
      | nil =>
        cases h with
        | outermost hbefore =>
          rw [verdict_lone_close]
          exact .unexpected (hbefore.firstLoneClose rest)
      | cons line opened =>
        have hnext := ih h.close
        rw [hline] at hnext
        rw [List.append_cons, verdict_close]
        exact hnext
    · rw [hl.verdict hopen hclose, ← lineBehind_concat, List.append_cons]
      exact ih (h.append (.other hopen hclose .nil))

/-- What the check says about a whole source. -/
theorem Lexed.verdict {lexemes : List Lexeme} (h : Lexed lexemes) :
    Verdict lexemes (checkBraces (source lexemes)) :=
  Stacked.verdict h (.outermost .nil)

theorem Balanced.not_loneClose (h : Balanced a) : ¬ LoneClose a before := by
  rintro ⟨⟨after, rfl⟩, hlone⟩
  exact hlone h.hasOpening

theorem Balanced.not_loneOpen (h : Balanced a) : ¬ LoneOpen a before := by
  rintro ⟨after, rfl, hlone⟩
  exact hlone h.hasClosing

end Lexeme

open Lexeme

/-- The report of the brace check on a source: the line and the message of a fault. -/
def braceReport (source : List Char) : Except (Nat × String) Unit :=
  (checkBraces source).mapError fun (line, fault) => (line, fault.message)

/-- The braces in the code of a source are checked, and no others: the source passes when they
balance, and otherwise the first closing brace without a partner is reported or, if every closing
brace has one, the last opening brace without one. -/
theorem lone_braces_reported (text : List Char) : ∃ lexemes, source lexemes = text ∧
    Lexed lexemes ∧ (∀ other, source other = text → Lexed other → other = lexemes) ∧
    (braceReport text = .ok () ↔ Balanced lexemes) ∧
    ((∃ before, LoneClose lexemes before) → ∃ before, FirstLoneClose lexemes before ∧
      braceReport text = .error (lineBehind before, "unexpected '\x7d'")) ∧
    ((∀ before, ¬ LoneClose lexemes before) → ¬ Balanced lexemes →
      ∃ before, LastLoneOpen lexemes before ∧
        braceReport text = .error (lineBehind before, "unclosed '\x7b'")) := by
  obtain ⟨lexemes, rfl, hlexed⟩ := exists_lexed text
  refine ⟨lexemes, rfl, hlexed, fun other hsource hother => hother.unique hlexed hsource, ?_⟩
  have hverdict := hlexed.verdict
  rw [braceReport]
  generalize checkBraces (source lexemes) = result at hverdict
  cases hverdict with
  | balanced h =>
    exact ⟨⟨fun _ => h, fun _ => rfl⟩, fun ⟨_, hlone⟩ => absurd hlone h.not_loneClose,
      fun _ hnot => absurd h hnot⟩
  | unexpected h =>
    exact ⟨⟨nofun, fun hbalanced => absurd h.1 hbalanced.not_loneClose⟩,
      fun _ => ⟨_, h, rfl⟩, fun hnone => absurd h.1 (hnone _)⟩
  | unclosed hnone h =>
    exact ⟨⟨nofun, fun hbalanced => absurd h.1 hbalanced.not_loneOpen⟩,
      fun ⟨_, hlone⟩ => absurd hlone (hnone _), fun _ _ => ⟨_, h, rfl⟩⟩

example : braceReport "s = '\\\n\x7b'; // '\n\x7d".toList = .error (3, "unexpected '\x7d'") :=
  rfl

end Pagewright
