import Pagewright.Source.Tidy

/-! Readers to which it makes no difference how far a line is indented. -/

namespace Pagewright

/-- A function that puts spaces before a line, or nothing. -/
def Indents (f : List Char → List Char) : Prop := ∀ line, ∃ k, f line = List.replicate k ' ' ++ line

/-- The text with its line endings settled, in which every line but the first is changed. -/
def reflow (f : List Char → List Char) (text : List Char) : List Char :=
  match lines text with
  | [] => ['\n']
  | first :: rest => first ++ '\n' :: unlines (rest.map f)

variable {f : List Char → List Char} {text : List Char}

/-- A text without line breaks is a line of its own, if it is not empty. -/
theorem lines_of_break_notMem (h : '\n' ∉ text) (hne : text ≠ []) : lines text = [text] := by
  induction text with
  | nil => exact absurd rfl hne
  | cons c rest ih =>
    obtain ⟨hc, hrest⟩ := not_or.mp (mt List.mem_cons.mpr h)
    have hbreak : c ≠ '\n' := fun e => hc e.symm
    have hreturn (tail : List Char) : c = '\r' → rest = '\n' :: tail → False := by
      rintro _ rfl
      exact hrest List.mem_cons_self
    rw [lines.eq_4 c rest hbreak hreturn]
    cases rest with
    | nil => rfl
    | cons next rest => rw [ih hrest (List.cons_ne_nil next rest)]

theorem lines_eq_nil (h : lines text = []) : text = [] := by
  unfold lines at h
  split at h
  · rfl
  · cases h
  · cases h
  · split at h <;> cases h

/-- A state in which spaces and line breaks change nothing. -/
def IsSettled {σ : Type} (step? : σ → Char → Option σ) (s : σ) : Prop :=
  step? s ' ' = some s ∧ step? s '\n' = some s

/-- A reader that skips what stands at the beginning and at the end of a line, in the states that
occur: a line break settles it, and a carriage return before the break may be left out. -/
structure SkipsMargins {σ : Type} (step? : σ → Char → Option σ) (occurs : σ → Prop) : Prop where
  keeps {s s' : σ} {c : Char} : occurs s → step? s c = some s' → occurs s'
  settles {s s' : σ} : occurs s → step? s '\n' = some s' → IsSettled step? s'
  carriage {s next s' : σ} : occurs s → step? s '\r' = some next → step? next '\n' = some s' →
    step? s '\n' = some s'

theorem unlines_cons (line : List Char) (rest : List (List Char)) :
    unlines (line :: rest) = line ++ '\n' :: unlines rest := by
  simp [unlines]

theorem toList_joinLines_break (piece : String) (rest : List String) :
    (joinLines (piece :: rest)).toList ++ ['\n'] = unlines ((piece :: rest).map String.toList) := by
  induction rest generalizing piece with
  | nil => simp [joinLines, joinWith, unlines]
  | cons next rest ih =>
    have hjoin : joinLines (piece :: next :: rest) = piece ++ "\n" ++ joinLines (next :: rest) := by
      rw [joinLines, joinWith]
      · rfl
      · exact List.cons_ne_nil next rest
    rw [hjoin, String.toList_append, List.append_assoc, ih]
    simp [unlines]

section Reader

variable {σ : Type} {step? : σ → Char → Option σ} {occurs : σ → Prop} {s s' : σ}

theorem IsSettled.foldlM_spaces (h : IsSettled step? s) (k : Nat) (rest : List Char) :
    (List.replicate k ' ' ++ rest).foldlM step? s = rest.foldlM step? s := by
  induction k with
  | zero => rfl
  | succ k ih =>
    rw [List.replicate_succ, List.cons_append, List.foldlM_cons, h.1]
    exact ih

/-- In a settled state it makes no difference whether the first line is changed. -/
theorem IsSettled.foldlM_unlines (h : IsSettled step? s) (hf : Indents f) (text : List Char) :
    (unlines ((lines text).map f)).foldlM step? s = (reflow f text).foldlM step? s := by
  unfold reflow
  cases lines text with
  | nil =>
    rw [List.foldlM_cons, h.2]
    rfl
  | cons first rest =>
    obtain ⟨k, hk⟩ := hf first
    simp only [unlines, List.map_cons, List.flatMap_cons, hk, List.append_assoc]
    exact h.foldlM_spaces k _

private theorem SkipsMargins.foldlM_break {next : σ} {rest : List Char}
    (h : SkipsMargins step? occurs) (hf : Indents f) (hs : occurs s)
    (hbreak : step? s '\n' = some next) (hrest : (reflow f rest).foldlM step? next = some s') :
    ('\n' :: unlines ((lines rest).map f)).foldlM step? s = some s' := by
  rw [List.foldlM_cons, hbreak]
  change (unlines ((lines rest).map f)).foldlM step? next = some s'
  rw [(h.settles hs hbreak).foldlM_unlines hf]
  exact hrest

/-- Indenting the lines of a text does not change how it is read. -/
theorem SkipsMargins.foldlM_reflow (h : SkipsMargins step? occurs) (hf : Indents f)
    (text : List Char) (hs : occurs s) (hrun : (text ++ ['\n']).foldlM step? s = some s') :
    (reflow f text).foldlM step? s = some s' := by
  induction text using lines.induct generalizing s with
  | case1 => exact hrun
  | case2 rest ih =>
    rw [List.cons_append, List.foldlM_cons] at hrun
    obtain ⟨next, hbreak, hrest⟩ := Option.bind_eq_some_iff.mp hrun
    have hflow : reflow f ('\n' :: rest) = '\n' :: unlines ((lines rest).map f) := by
      rw [reflow, lines]
      rfl
    rw [hflow]
    exact h.foldlM_break hf hs hbreak (ih (h.keeps hs hbreak) hrest)
  | case3 rest ih =>
    rw [List.cons_append, List.foldlM_cons] at hrun
    obtain ⟨before, hreturn, hrun⟩ := Option.bind_eq_some_iff.mp hrun
    rw [List.cons_append, List.foldlM_cons] at hrun
    obtain ⟨next, hbreak, hrest⟩ := Option.bind_eq_some_iff.mp hrun
    have hskip := h.carriage hs hreturn hbreak
    have hflow : reflow f ('\r' :: '\n' :: rest) = '\n' :: unlines ((lines rest).map f) := by
      rw [reflow, lines]
      rfl
    rw [hflow]
    exact h.foldlM_break hf hs hskip (ih (h.keeps hs hskip) hrest)
  | case4 c rest hbreak hreturn hrest =>
    have hflow : reflow f (c :: rest) = [c, '\n'] := by
      rw [reflow, lines.eq_4 c rest hbreak hreturn, hrest]
      rfl
    obtain rfl := lines_eq_nil hrest
    rw [hflow]
    exact hrun
  | case5 c rest hbreak hreturn first more hrest ih =>
    have hflow : reflow f (c :: rest) = c :: reflow f rest := by
      rw [reflow, lines.eq_4 c rest hbreak hreturn, reflow, hrest]
      rfl
    rw [List.cons_append, List.foldlM_cons] at hrun
    obtain ⟨next, hc, hnext⟩ := Option.bind_eq_some_iff.mp hrun
    rw [hflow, List.foldlM_cons, hc]
    exact ih (h.keeps hs hc) hnext

/-- Indented lines, joined and with a line break after them, are read as they were. -/
theorem SkipsMargins.foldlM_joinLines (h : SkipsMargins step? occurs) {f : List Char → String}
    (hf : Indents fun line => (f line).toList) (settled : IsSettled step? s) (hs : occurs s)
    (hrun : (text ++ ['\n']).foldlM step? s = some s') :
    ((joinLines ((lines text).map f)).toList ++ ['\n']).foldlM step? s = some s' := by
  have hflow : (unlines ((lines text).map fun line => (f line).toList)).foldlM step? s =
      some s' := by
    rw [settled.foldlM_unlines hf]
    exact h.foldlM_reflow hf text hs hrun
  cases hlines : lines text with
  | nil =>
    obtain rfl := lines_eq_nil hlines
    exact hrun
  | cons first rest =>
    rw [hlines, List.map_cons] at hflow
    rw [List.map_cons, toList_joinLines_break, List.map_cons, List.map_map]
    exact hflow

end Reader

/-- Indenting a line puts spaces before it, or nothing. -/
theorem indentLine_indents : Indents fun line => (indentLine (String.ofList line)).toList := by
  intro line
  dsimp only
  unfold indentLine
  split
  · next hempty => exact ⟨0, by simpa using hempty.symm⟩
  · exact ⟨2, by simp⟩

end Pagewright
