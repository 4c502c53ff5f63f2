import Pagewright.Proofs.Source.Balance
import Pagewright.Proofs.Source.Reflow

/-! Spaces put before the lines of a text do not change how its braces are read. -/

namespace Pagewright

variable {text : List Char}

theorem Level.spaces (k : Nat) : Level (List.replicate k ' ') := by
  apply Level.of_inert
  intro c hc
  rw [List.eq_of_mem_replicate hc]
  rfl

/-- The modes that occur: no string is marked by a carriage return. -/
def Mode.occurs : Mode → Bool
  | quoted mark | escaped mark => mark ≠ '\r'
  | _ => true

namespace Reading

variable {r r' next : Reading}

private theorem calmStep?_break (h : r.calmStep? '\n' = some r') :
    r.mode.allowsBreak ∧ r' = ⟨.code, r.depth⟩ := by
  obtain ⟨mode, depth⟩ := r
  cases mode <;>
    simp_all [calmStep?, step?, Mode.allowsBreak, Mode.readsCode, Mode.after, readCode?,
      BraceScan.codeMode]

private theorem occurs_of_calmStep? {c : Char} (hr : r.mode.occurs) (h : r.calmStep? c = some r') :
    r'.mode.occurs := by
  have hcode (c : Char) : (BraceScan.codeMode c).occurs := by
    unfold BraceScan.codeMode
    split
    · next hmark =>
      simp only [Bool.or_eq_true, decide_eq_true_eq] at hmark
      rcases hmark with (rfl | rfl) | rfl <;> rfl
    · split <;> rfl
  have h := step?_of_calmStep? h
  unfold step? at h
  split at h
  · unfold readCode? at h
    split at h
    · obtain rfl := Option.some.inj h
      rfl
    split at h
    · split at h
      · cases h
      · obtain rfl := Option.some.inj h
        rfl
    · obtain rfl := Option.some.inj h
      exact hcode c
  · obtain rfl := Option.some.inj h
    obtain ⟨mode, depth⟩ := r
    cases mode <;> simp only [Mode.after] <;> (repeat' split) <;> first | rfl | exact hr

/-- A carriage return before a line break may be left out. -/
private theorem calmStep?_return (hr : r.mode.occurs) (hreturn : r.calmStep? '\r' = some next)
    (hbreak : next.calmStep? '\n' = some r') : r.calmStep? '\n' = some r' := by
  obtain ⟨allowed, rfl⟩ := calmStep?_break hbreak
  obtain ⟨mode, depth⟩ := r
  cases mode with
  | code | slash | lineComment =>
    obtain rfl := Option.some.inj hreturn
    rfl
  | quoted mark =>
    have hmark : '\r' ≠ mark := fun e => by
      subst e
      cases hr
    obtain rfl : next = ⟨.quoted mark, depth⟩ := by
      simpa [calmStep?, step?, Mode.readsCode, Mode.after, hmark] using hreturn.symm
    cases allowed
  | escaped mark | blockComment | star =>
    obtain rfl := Option.some.inj hreturn
    cases allowed

/-- In the modes that occur, reading calmly skips the margins of lines. -/
theorem skipsMargins : SkipsMargins calmStep? fun r => r.mode.occurs where
  keeps := occurs_of_calmStep?
  settles _ h := by
    obtain ⟨-, rfl⟩ := calmStep?_break h
    exact ⟨rfl, rfl⟩
  carriage := calmStep?_return

end Reading

theorem Level.joinWith {separator : String} (hs : Level separator.toList) {pieces : List String}
    (h : ∀ piece ∈ pieces, Level piece.toList) : Level (joinWith separator pieces).toList := by
  induction pieces with
  | nil => rfl
  | cons piece rest ih =>
    obtain ⟨hpiece, hrest⟩ := List.forall_mem_cons.mp h
    cases rest with
    | nil => exact hpiece
    | cons next rest =>
      rw [Pagewright.joinWith, String.toList_append, String.toList_append]
      · exact (hpiece.append hs).append (ih hrest)
      · exact List.cons_ne_nil next rest

/-- The indented lines of a level text, joined and with a line break after them, are level. -/
theorem Level.joinLines_map {f : List Char → String} (hf : Indents fun line => (f line).toList)
    (h : Level text) : Level ((joinLines ((lines text).map f)).toList ++ ['\n']) := by
  have hend : Level (text ++ ['\n']) := h.append rfl
  exact Reading.skipsMargins.foldlM_joinLines hf ⟨rfl, rfl⟩ rfl hend

theorem indentBlock_level {block : String} (h : Level block.toList) :
    Level ((indentBlock block).toList ++ ['\n']) := by
  rw [indentBlock, linesOf, List.map_map]
  exact h.joinLines_map indentLine_indents

end Pagewright
