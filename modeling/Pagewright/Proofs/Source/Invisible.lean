import Pagewright.Proofs.Markup.Bindings
import Pagewright.Proofs.Markup.Escape
import Pagewright.Proofs.Page.Metadata

/-! Embedded texts that the brace check does not see: it reads them in code, below whatever braces
are open, and goes on as if they were not there, some lines further down. -/

namespace Pagewright

/-- Wherever the check stands in code, it reads the text without a complaint, stands in code after
it, and has the same braces open. -/
def Invisible (text : List Char) (next : Option Char) : Prop :=
  ∀ s : BraceScan, s.mode.isCodeBefore (text.head?.or next) →
    ∃ mode, s.run text = .ok ⟨mode, s.line + text.count '\n', s.opened⟩ ∧ mode.isCodeBefore next

namespace BraceScan

variable {s s' : BraceScan} {c : Char} {text : List Char}

/-- The state with further braces open around it. -/
def within (around : List Nat) (s : BraceScan) : BraceScan := { s with opened := s.opened ++ around }

private theorem readCode_within (around : List Nat) (h : s.readCode c = .ok s') :
    (s.within around).readCode c = .ok (s'.within around) := by
  obtain ⟨mode, line, opened⟩ := s
  unfold readCode at h ⊢
  by_cases hopen : c = '{'
  · rw [if_pos hopen] at h ⊢
    rw [← Except.ok.inj h]
    rfl
  by_cases hclose : c = '}'
  · rw [if_neg hopen, if_pos hclose] at h ⊢
    cases opened with
    | nil => cases h
    | cons innermost rest =>
      rw [← Except.ok.inj h]
      rfl
  · rw [if_neg hopen, if_neg hclose] at h ⊢
    rw [← Except.ok.inj h]
    rfl

private theorem readChar_within (around : List Nat) (h : s.readChar c = .ok s') :
    (s.within around).readChar c = .ok (s'.within around) := by
  rw [readChar_eq] at h ⊢
  change (if s.mode.readsCode c then _ else _) = _
  split at h
  · next hcode =>
    rw [if_pos hcode]
    exact readCode_within around h
  · next hcode =>
    rw [if_neg hcode, ← Except.ok.inj h]
    rfl

/-- A character leaves the braces around the open ones alone. -/
theorem step_within (around : List Nat) (h : s.step c = .ok s') :
    (s.within around).step c = .ok (s'.within around) := by
  unfold step at h ⊢
  split at h
  · next hbreak =>
    rw [if_pos hbreak]
    exact readChar_within around h
  · next hbreak =>
    rw [if_neg hbreak]
    exact readChar_within around h

theorem run_within (around : List Nat) (h : s.run text = .ok s') :
    (s.within around).run text = .ok (s'.within around) := by
  induction text generalizing s with
  | nil =>
    rw [← Except.ok.inj h]
    rfl
  | cons c rest ih =>
    rw [run_cons] at h ⊢
    cases hc : s.step c with
    | error fault =>
      rw [hc] at h
      cases h
    | ok next =>
      rw [hc] at h
      rw [step_within around hc]
      exact ih h

private theorem readChar_line (h : s.readChar c = .ok s') : s'.line = s.line := by
  rw [readChar_eq] at h
  split at h
  · unfold readCode at h
    repeat' split at h
    all_goals cases h
    all_goals rfl
  · rw [← Except.ok.inj h]

/-- Lines are counted by their breaks, in whatever mode. -/
theorem run_line (h : s.run text = .ok s') : s'.line = s.line + text.count '\n' := by
  induction text generalizing s with
  | nil => rw [← Except.ok.inj h, List.count_nil, Nat.add_zero]
  | cons c rest ih =>
    rw [run_cons] at h
    cases hc : s.step c with
    | error fault =>
      rw [hc] at h
      cases h
    | ok next =>
      rw [hc] at h
      rw [ih h, List.count_cons, readChar_line hc]
      split
      · next hbreak => simp [hbreak]; omega
      · next hbreak => simp [hbreak]

theorem exists_run {r : Reading} (h : s.reading.run? text = some r) :
    ∃ s', s.run text = .ok s' ∧ s'.reading = r := by
  rw [reading_run] at h
  cases hs : s.run text with
  | error fault =>
    rw [hs] at h
    cases h
  | ok s' =>
    rw [hs] at h
    exact ⟨s', rfl, Option.some.inj h⟩

end BraceScan

namespace Invisible

variable {text rest : List Char} {next : Option Char}

theorem of_reading {mode : Mode} (h : Reading.run? ⟨.code, 0⟩ text = some ⟨mode, 0⟩)
    (hmode : mode.isCodeBefore next) : Invisible text next := by
  rintro ⟨start, line, opened⟩ hs
  cases text with
  | nil => exact ⟨start, rfl, hs⟩
  | cons c rest =>
    obtain ⟨⟨last, line', opened'⟩, hrun, hreading⟩ :=
      BraceScan.exists_run (s := ⟨.code, line, []⟩) h
    obtain ⟨rfl, hopened⟩ := Reading.mk.inj hreading
    obtain rfl := List.eq_nil_of_length_eq_zero hopened
    obtain rfl := BraceScan.run_line hrun
    refine ⟨last, ?_, hmode⟩
    rw [BraceScan.run_of_isCodeBefore hs]
    exact BraceScan.run_within opened hrun

theorem of_level (h : Level text) (next : Option Char) : Invisible text next :=
  of_reading (Reading.run?_of_calmRun? h) rfl

/-- What follows is read as if it came first, some lines further down. -/
theorem run_append {c : Char} (h : Invisible text (some c)) {s : BraceScan}
    (hs : s.mode.isCodeBefore (text.head?.or (some c))) (rest : List Char) :
    s.run (text ++ c :: rest) =
      BraceScan.run ⟨.code, s.line + text.count '\n', s.opened⟩ (c :: rest) := by
  obtain ⟨mode, hrun, hmode⟩ := h s hs
  rw [BraceScan.run_append, hrun]
  exact BraceScan.run_of_isCodeBefore hmode rest

end Invisible

/-- The texts that pages embed are not seen by the brace check: running text in front of a tag,
quoted texts, metadata values of all kinds, lists and documents among them, and motion props. -/
theorem embedded_invisible :
    (∀ s : String, Invisible (escapeText s).toList (some '<')) ∧
      (∀ (s : String) (next : Option Char), Invisible (quoteSingle s).toList next) ∧
      (∀ (value : MetaValue) (next : Option Char), Invisible value.literal.toList next) ∧
      ∀ (a : Animation) (next : Option Char), Invisible a.motionProps.attributes.toList next := by
  refine ⟨fun s => ?_, fun s => .of_level (quoteSingle_level s),
    fun value => .of_level value.literal_level, fun a => .of_level a.motionAttributes_level⟩
  obtain ⟨mode, hmode, hrun⟩ := exists_calmRun?_escapeTextChars s.toList
  rw [escapeText, String.toList_ofList]
  refine Invisible.of_reading (Reading.run?_of_calmRun? hrun) ?_
  rcases hmode with rfl | rfl <;> decide

end Pagewright
