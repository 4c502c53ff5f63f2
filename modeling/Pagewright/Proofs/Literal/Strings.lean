import Pagewright.Json.Writer
import Pagewright.Page.Metadata
import Pagewright.Proofs.Literal.Reader

/-! Strings of literals: those of documents and quoted texts are read as what they were written for,
except that a quoted text breaks off at a carriage return. -/

namespace Pagewright

namespace Literal

open StringMode

section Quoted

variable {mark : Char}

theorem readString?_end (rest : List Char) :
    readString? mark plain (mark :: rest) = some ([], rest) := by
  simp [readString?, mayEnd]

theorem readString?_step {m next : StringMode} {c : Char} {piece : List Char}
    (hstep : m.step? c = some (next, piece)) (hopen : m.mayEnd → c ≠ mark)
    (rest : List Char) : readString? mark m (c :: rest) =
      (readString? mark next rest).map fun (text, rest) => (piece ++ text, rest) := by
  rw [readString?, if_neg (by simpa using hopen), hstep]
  rfl

theorem readString?_plain {c : Char} (hmark : c ≠ mark) (hslash : c ≠ '\\')
    (hline : c ≠ '\n') (hreturn : c ≠ '\r') (rest : List Char) :
    readString? mark plain (c :: rest) =
      (readString? mark plain rest).map fun (text, rest) => (c :: text, rest) := by
  have hstep : step? plain c = some (plain, [c]) := by
    simp [step?, plainStep?, hslash, hline, hreturn]
  exact readString?_step hstep (fun _ => hmark) rest

private theorem readString?_escape {c d : Char} (hmark : mark ≠ '\\')
    (h : escapeStep? c = some (plain, [d])) (rest : List Char) :
    readString? mark plain ('\\' :: c :: rest) =
      (readString? mark plain rest).map fun (text, rest) => (d :: text, rest) := by
  rw [readString?_step rfl fun _ => hmark.symm, readString?_step (m := escape) h nofun]
  cases readString? mark plain rest <;> rfl

theorem readString?_line_end {c : Char} (hmark : c ≠ mark) (hc : c = '\n' ∨ c = '\r')
    (rest : List Char) : readString? mark plain (c :: rest) = none := by
  rw [readString?, if_neg (by simp [hmark]), step?, plainStep?, if_pos (by simpa using hc)]
  rfl

/-- A quoted text is read as itself, unless it holds a carriage return, which ends the line. -/
theorem readString?_quoteSingle (text rest : List Char) :
    readString? '\'' plain (text.flatMap (fun c => (literalChar c).toList) ++ '\'' :: rest) =
      if '\r' ∈ text then none else some (text, rest) := by
  induction text with
  | nil => exact readString?_end rest
  | cons c text ih =>
    have hread : readString? '\'' plain ((literalChar c).toList ++
          (text.flatMap (fun c => (literalChar c).toList) ++ '\'' :: rest)) =
        if c = '\r' then none
        else (readString? '\'' plain (text.flatMap (fun c => (literalChar c).toList) ++
          '\'' :: rest)).map fun (text, rest) => (c :: text, rest) := by
      by_cases hslash : c = '\\'
      · subst hslash
        exact readString?_escape (by decide) rfl _
      by_cases hmark : c = '\''
      · subst hmark
        exact readString?_escape (by decide) rfl _
      by_cases hline : c = '\n'
      · subst hline
        exact readString?_escape (by decide) rfl _
      · have hself : (literalChar c).toList = [c] := by
          simp [literalChar, hslash, hmark, hline]
        rw [hself, List.singleton_append]
        split
        · next hreturn =>
          subst hreturn
          exact readString?_line_end (by decide) (.inr rfl) _
        · next hreturn => exact readString?_plain hmark hslash hline hreturn _
    rw [List.flatMap_cons, List.append_assoc, hread, ih]
    by_cases hreturn : c = '\r'
    · simp [hreturn]
    · have hiff : '\r' ∈ c :: text ↔ '\r' ∈ text := by simp [Ne.symm hreturn]
      simp only [hreturn, hiff, if_false]
      split <;> rfl

private theorem readString?_control {n : Nat} (h : n < 0x20) (rest : List Char) :
    readString? '"' plain ('\\' :: 'u' :: '0' :: '0' :: Nat.digitChar (n / 16) ::
        Nat.digitChar (n % 16) :: rest) =
      (readString? '"' plain rest).map fun (text, rest) => (Char.ofNat n :: text, rest) := by
  have hdigits : ∀ n < 0x20,
      digitStep? 2 0 (Nat.digitChar (n / 16)) = some (digits 1 (n / 16), []) ∧
        digitStep? 1 (n / 16) (Nat.digitChar (n % 16)) = some (plain, [Char.ofNat n]) := by
    decide
  have hzero : digitStep? 4 0 '0' = some (digits 3 0, []) := by decide
  have hzero' : digitStep? 3 0 '0' = some (digits 2 0, []) := by decide
  obtain ⟨hfirst, hsecond⟩ := hdigits n h
  rw [readString?_step rfl (by decide), readString?_step (m := escape) rfl nofun,
    readString?_step (m := digits 4 0) hzero nofun,
    readString?_step (m := digits 3 0) hzero' nofun,
    readString?_step (m := digits 2 0) hfirst nofun,
    readString?_step (m := digits 1 (n / 16)) hsecond nofun]
  cases readString? '"' plain rest <;> rfl

/-- The string of a document is read as itself. -/
theorem readString?_escaped (text rest : List Char) :
    readString? '"' plain (text.flatMap Json.escapeChar ++ '"' :: rest) = some (text, rest) := by
  induction text with
  | nil => exact readString?_end rest
  | cons c text ih =>
    have hread : readString? '"' plain (Json.escapeChar c ++
          (text.flatMap Json.escapeChar ++ '"' :: rest)) =
        (readString? '"' plain (text.flatMap Json.escapeChar ++ '"' :: rest)).map
          fun (text, rest) => (c :: text, rest) := by
      by_cases hnamed : c ∈ ['"', '\\', '\x08', '\x0c', '\n', '\r', '\t']
      · simp only [List.mem_cons, List.not_mem_nil, or_false] at hnamed
        rcases hnamed with rfl | rfl | rfl | rfl | rfl | rfl | rfl <;>
          exact readString?_escape (by decide) rfl _
      · simp only [List.mem_cons, List.not_mem_nil, or_false, not_or] at hnamed
        simp only [Json.escapeChar, hnamed, if_false]
        obtain ⟨hquote, hslash, -, -, hline, hreturn, -⟩ := hnamed
        split
        · next h =>
          have hread := readString?_control h
            (text.flatMap Json.escapeChar ++ '"' :: rest)
          rwa [Char.ofNat_toNat] at hread
        · next h => exact readString?_plain hquote hslash hline hreturn _
    rw [List.flatMap_cons, List.append_assoc, hread, ih]
    rfl

end Quoted

section Length

variable {mark : Char} {mode next : StringMode} {c : Char} {piece text rest : List Char}

private theorem plainStep?_piece (h : plainStep? c = some (next, piece)) : piece.length ≤ 1 ∧
    (c = ':' → piece = [':']) := by
  unfold plainStep? at h
  split at h
  · cases h
  split at h
  · next hslash =>
    obtain ⟨-, rfl⟩ := Prod.mk.inj (Option.some.inj h)
    exact ⟨by simp, fun hc => absurd (hc.symm.trans hslash) (by decide)⟩
  · obtain ⟨-, rfl⟩ := Prod.mk.inj (Option.some.inj h)
    exact ⟨Nat.le_refl _, fun hc => by rw [hc]⟩

private theorem escapeStep?_piece (h : escapeStep? c = some (next, piece)) : piece.length ≤ 1 ∧
    (c = ':' → piece = [':']) := by
  by_cases hc : c = ':'
  · subst hc
    obtain ⟨-, rfl⟩ := Prod.mk.inj (Option.some.inj h)
    exact ⟨Nat.le_refl _, fun _ => rfl⟩
  · refine ⟨?_, fun e => absurd e hc⟩
    unfold escapeStep? at h
    repeat' split at h
    all_goals cases h
    all_goals simp

private theorem digitStep?_piece {missing value : Nat}
    (h : digitStep? missing value c = some (next, piece)) : piece.length ≤ 1 ∧
    (c = ':' → piece = [':']) := by
  obtain ⟨digit, hdigit, h⟩ := Option.bind_eq_some_iff.mp h
  refine ⟨?_, fun hc => ?_⟩
  · dsimp only at h
    repeat' split at h
    all_goals cases h
    all_goals simp
  · rw [hc] at hdigit
    cases hdigit

/-- A character of a string gives at most one character of its text, and a colon gives itself. -/
private theorem step?_piece (h : mode.step? c = some (next, piece)) : piece.length ≤ 1 ∧
    (c = ':' → piece = [':']) := by
  cases mode with
  | plain => exact plainStep?_piece h
  | escape => exact escapeStep?_piece h
  | digits missing value => exact digitStep?_piece h
  | zero =>
    rw [step?] at h
    split at h
    · cases h
    · exact plainStep?_piece h
  | carriage =>
    rw [step?] at h
    split at h
    · next hline =>
      obtain ⟨-, rfl⟩ := Prod.mk.inj (Option.some.inj h)
      exact ⟨Nat.zero_le _, fun hc => absurd (hc.symm.trans hline) (by decide)⟩
    · exact plainStep?_piece h

/-- A string is longer than its text. -/
theorem readString?_length (cs : List Char) (h : readString? mark mode cs = some (text, rest)) :
    text.length + rest.length < cs.length := by
  induction cs generalizing mode text with
  | nil => cases h
  | cons c cs ih =>
    rw [readString?] at h
    split at h
    · obtain ⟨rfl, rfl⟩ := Prod.mk.inj (Option.some.inj h)
      simp
    · obtain ⟨⟨next, piece⟩, hstep, h⟩ := Option.bind_eq_some_iff.mp h
      obtain ⟨⟨more, rest'⟩, hmore, h⟩ := Option.map_eq_some_iff.mp h
      obtain ⟨rfl, rfl⟩ := Prod.mk.inj h
      have hrest := ih hmore
      have hpiece := (step?_piece hstep).1
      rw [List.length_append, List.length_cons]
      omega

/-- The first colon that a string passes comes no later in its text. -/
theorem exists_colon_of_readString? (hmark : mark ≠ ':') {before after : List Char}
    (h : readString? mark mode (before ++ ':' :: after) = some (text, rest))
    (hpassed : rest.length ≤ after.length) : ∃ i ≤ before.length, text[i]? = some ':' := by
  induction before generalizing mode text with
  | nil =>
    rw [List.nil_append, readString?] at h
    rw [if_neg (by simp [hmark.symm])] at h
    obtain ⟨⟨next, piece⟩, hstep, h⟩ := Option.bind_eq_some_iff.mp h
    obtain ⟨⟨more, rest'⟩, hmore, h⟩ := Option.map_eq_some_iff.mp h
    obtain ⟨rfl, rfl⟩ := Prod.mk.inj h
    refine ⟨0, Nat.le_refl _, ?_⟩
    rw [(step?_piece hstep).2 rfl]
    rfl
  | cons c before ih =>
    rw [List.cons_append, readString?] at h
    split at h
    · -- The string would end before the colon.
      obtain ⟨-, rfl⟩ := Prod.mk.inj (Option.some.inj h)
      rw [List.length_append, List.length_cons] at hpassed
      omega
    · obtain ⟨⟨next, piece⟩, hstep, h⟩ := Option.bind_eq_some_iff.mp h
      obtain ⟨⟨more, rest'⟩, hmore, h⟩ := Option.map_eq_some_iff.mp h
      obtain ⟨rfl, rfl⟩ := Prod.mk.inj h
      obtain ⟨i, hi, hcolon⟩ := ih hmore
      have hpiece := (step?_piece hstep).1
      refine ⟨piece.length + i, by simp; omega, ?_⟩
      rw [List.getElem?_append_right (by omega), Nat.add_sub_cancel_left]
      exact hcolon

end Length

end Literal

end Pagewright
