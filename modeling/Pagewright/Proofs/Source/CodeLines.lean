import Mathlib.Data.List.DropRight
import Pagewright.Page.Template
import Pagewright.Proofs.Source.Indentation

/-! The lines of a source that hold something. Tidying keeps them, and so a text made of pieces can
be read line by line whatever the blanks between the pieces are. -/

namespace Pagewright

/-- The lines that hold something, without the blanks at their ends. -/
def codeLines (text : List Char) : List (List Char) :=
  ((lines text).map trimEnd).filter fun line => line ≠ []

section Trim

variable {a b line : List Char}

theorem trimEnd_eq_nil_iff : trimEnd line = [] ↔ ∀ c ∈ line, isBlank c :=
  List.rdropWhile_eq_nil_iff

theorem trimEnd_trimEnd (line : List Char) : trimEnd (trimEnd line) = trimEnd line :=
  List.rdropWhile_idempotent isBlank line

theorem trimEnd_sublist (line : List Char) : (trimEnd line).Sublist line :=
  (List.rdropWhile_prefix isBlank (l := line)).sublist

theorem trimEnd_append (a b : List Char) :
    trimEnd (a ++ b) = if trimEnd b = [] then trimEnd a else a ++ trimEnd b := by
  have hnil : trimEnd b = [] ↔ (b.reverse.dropWhile isBlank).isEmpty := by
    rw [trimEnd, List.reverse_eq_nil_iff, List.isEmpty_iff]
  simp only [hnil]
  rw [trimEnd, List.reverse_append, List.dropWhile_append]
  split <;> simp [trimEnd]

theorem trim_isEmpty_iff : (trim line).isEmpty ↔ trimEnd line = [] := by
  have hstart : trimStart line = [] ↔ ∀ c ∈ line, isBlank c := by
    rw [trimStart, List.dropWhile_eq_nil_iff]
  rw [List.isEmpty_iff, trim, trimEnd_eq_nil_iff, trimEnd_eq_nil_iff]
  constructor
  · intro h
    -- What is left begins with no blank, so that nothing is left.
    refine hstart.mp ?_
    cases hline : trimStart line with
    | nil => rfl
    | cons c rest =>
      have hhead := List.head?_dropWhile_not isBlank line
      rw [show line.dropWhile isBlank = c :: rest from hline] at hhead
      have hc : ¬ isBlank c := by simpa using hhead
      exact absurd (h c (hline ▸ List.mem_cons_self)) hc
  · intro h
    rw [hstart.mpr h]
    nofun

end Trim

section Lines

variable {a b line : List Char}

theorem break_notMem_lines (text : List Char) : ∀ line ∈ lines text, '\n' ∉ line := by
  induction text using lines.induct with
  | case1 => simp [lines]
  | case2 rest ih =>
    rw [lines]
    exact List.forall_mem_cons.mpr ⟨List.not_mem_nil, ih⟩
  | case3 rest ih =>
    rw [lines]
    exact List.forall_mem_cons.mpr ⟨List.not_mem_nil, ih⟩
  | case4 c rest hbreak hreturn hrest =>
    rw [lines.eq_4 c rest hbreak hreturn, hrest]
    simpa using Ne.symm hbreak
  | case5 c rest hbreak hreturn first more hrest ih =>
    rw [hrest] at ih
    rw [lines.eq_4 c rest hbreak hreturn, hrest]
    obtain ⟨hfirst, hmore⟩ := List.forall_mem_cons.mp ih
    refine List.forall_mem_cons.mpr ⟨?_, hmore⟩
    rw [List.mem_cons, not_or]
    exact ⟨Ne.symm hbreak, hfirst⟩

theorem lines_char_break {c : Char} (hbreak : c = '\n' → False) (b : List Char) :
    lines (c :: '\n' :: b) = (if c = '\r' then [] else [c]) :: lines b := by
  by_cases hc : c = '\r'
  · subst hc
    simp [lines]
  · rw [if_neg hc, lines.eq_4 c _ hbreak fun _ e _ => hc e, lines]

/-- What stands behind a text does not change how its first character is taken. -/
theorem lines_cons_append {c : Char} {rest : List Char} (hbreak : c = '\n' → False)
    (hreturn : ∀ tail, c = '\r' → rest = '\n' :: tail → False) (hrest : rest ≠ [])
    (tail : List Char) : lines (c :: (rest ++ tail)) =
      match lines (rest ++ tail) with
      | [] => [[c]]
      | first :: more => (c :: first) :: more := by
  refine lines.eq_4 c _ hbreak fun next e h => ?_
  cases rest with
  | nil => exact hrest rfl
  | cons d rest => exact hreturn rest e (by rw [(List.cons.inj h).1])

/-- A line break ends the last line of what stands before it. -/
theorem lines_append_break (a b : List Char) :
    lines (a ++ '\n' :: b) = lines (a ++ ['\n']) ++ lines b := by
  induction a using lines.induct with
  | case1 => simp [lines]
  | case2 rest ih => simp [lines, ih]
  | case3 rest ih => simp [lines, ih]
  | case4 c rest hbreak hreturn hrest =>
    obtain rfl := lines_eq_nil hrest
    simp [lines_char_break hbreak, lines]
  | case5 c rest hbreak hreturn first more hrest ih =>
    have hne : rest ≠ [] := by
      rintro rfl
      cases hrest
    have hcons := lines_cons_append hbreak hreturn hne
    rw [List.cons_append, List.cons_append, hcons, hcons, ih]
    cases hlines : lines (rest ++ ['\n']) with
    | nil => exact absurd (lines_eq_nil hlines) (by simp)
    | cons first more => rfl

private theorem trimmed_append_break (a : List Char) : ∃ k,
    (lines (a ++ ['\n'])).map trimEnd = (lines a).map trimEnd ++ List.replicate k [] := by
  induction a using lines.induct with
  | case1 => exact ⟨1, rfl⟩
  | case2 rest ih =>
    obtain ⟨k, hk⟩ := ih
    exact ⟨k, by simp [lines, hk]⟩
  | case3 rest ih =>
    obtain ⟨k, hk⟩ := ih
    exact ⟨k, by simp [lines, hk]⟩
  | case4 c rest hbreak hreturn hrest =>
    obtain rfl := lines_eq_nil hrest
    refine ⟨0, ?_⟩
    rw [List.cons_append, List.nil_append, lines_char_break hbreak,
      lines.eq_4 c [] hbreak fun _ _ h => by cases h]
    split
    · next hc =>
      subst hc
      rfl
    · rfl
  | case5 c rest hbreak hreturn first more hrest ih =>
    obtain ⟨k, hk⟩ := ih
    have hne : rest ≠ [] := by
      rintro rfl
      cases hrest
    refine ⟨k, ?_⟩
    rw [List.cons_append, lines_cons_append hbreak hreturn hne, lines.eq_4 c rest hbreak hreturn]
    cases hlines : lines (rest ++ ['\n']) with
    | nil => exact absurd (lines_eq_nil hlines) (by simp)
    | cons first' more' =>
      rw [hlines, hrest] at hk
      obtain ⟨hfirst, hmore⟩ := List.cons.inj hk
      have htrim : trimEnd ([c] ++ first') = trimEnd ([c] ++ first) := by
        rw [trimEnd_append, trimEnd_append, hfirst]
      simpa [hrest, hmore] using htrim

/-- Texts on either side of a line break are read one after the other. -/
theorem codeLines_append_break (a b : List Char) :
    codeLines (a ++ '\n' :: b) = codeLines a ++ codeLines b := by
  obtain ⟨k, hk⟩ := trimmed_append_break a
  unfold codeLines
  rw [lines_append_break, List.map_append, List.filter_append, hk, List.filter_append]
  simp

theorem codeLines_append (h : a.getLast? = some '\n') (b : List Char) :
    codeLines (a ++ b) = codeLines a ++ codeLines b := by
  obtain ⟨text, rfl⟩ := List.getLast?_eq_some_iff.mp h
  rw [List.append_assoc, List.singleton_append, codeLines_append_break, codeLines_append_break]
  simp [codeLines, lines]

theorem codeLines_of_break_notMem (h : '\n' ∉ line) :
    codeLines line = if trimEnd line = [] then [] else [trimEnd line] := by
  cases line with
  | nil => rfl
  | cons c rest =>
    rw [codeLines, lines_of_break_notMem h (List.cons_ne_nil c rest)]
    split <;> simp [*]

theorem codeLines_unlines (ls : List (List Char)) :
    codeLines (unlines ls) = ls.flatMap codeLines := by
  induction ls with
  | nil => rfl
  | cons line rest ih =>
    rw [unlines_cons, codeLines_append_break, ih, List.flatMap_cons]

theorem codeLines_joinLines (pieces : List String) :
    codeLines (joinLines pieces).toList = pieces.flatMap fun piece => codeLines piece.toList := by
  induction pieces with
  | nil => rfl
  | cons piece rest ih =>
    cases rest with
    | nil => simp [joinLines, joinWith]
    | cons next rest =>
      have hjoin : (joinLines (piece :: next :: rest)).toList =
          piece.toList ++ '\n' :: (joinLines (next :: rest)).toList := by
        simp [joinLines, joinWith]
      rw [hjoin, codeLines_append_break, ih]
      rfl

theorem settleLines_filter (kept gap : Bool) (ls : List (List Char)) :
    (settleLines kept gap ls).filter (fun line => line ≠ []) = ls.filter fun line => line ≠ [] := by
  induction ls generalizing kept gap with
  | nil => rfl
  | cons line rest ih =>
    cases line with
    | nil => simpa [settleLines] using ih kept kept
    | cons c line =>
      have htail := ih true false
      cases gap <;> simpa [settleLines] using htail

private theorem flatMap_codeLines_of_trimmed {ls : List (List Char)}
    (h : ∀ line ∈ ls, '\n' ∉ line ∧ trimEnd line = line) :
    ls.flatMap codeLines = ls.filter fun line => line ≠ [] := by
  induction ls with
  | nil => rfl
  | cons line rest ih =>
    obtain ⟨⟨hbreak, htrim⟩, hrest⟩ := List.forall_mem_cons.mp h
    rw [List.flatMap_cons, ih hrest, codeLines_of_break_notMem hbreak, htrim, List.filter_cons]
    by_cases hline : line = [] <;> simp [hline]

private theorem eq_nil_or_mem_of_mem_settleLines {kept gap : Bool} {ls : List (List Char)} :
    ∀ line ∈ settleLines kept gap ls, line = [] ∨ line ∈ ls := by
  intro line hm
  by_cases hline : line = []
  · exact .inl hline
  · have hkept : line ∈ (settleLines kept gap ls).filter fun line => line ≠ [] :=
      List.mem_filter.mpr ⟨hm, by simpa using hline⟩
    rw [settleLines_filter] at hkept
    exact .inr (List.mem_of_mem_filter hkept)

/-- Settled lines neither break nor end in a blank. -/
theorem trimmed_of_mem_settleLines (text : List Char) :
    ∀ line ∈ settleLines false false ((lines text).map trimEnd),
      '\n' ∉ line ∧ trimEnd line = line := by
  intro line hm
  rcases eq_nil_or_mem_of_mem_settleLines line hm with rfl | hm
  · exact ⟨List.not_mem_nil, rfl⟩
  · obtain ⟨whole, hwhole, rfl⟩ := List.mem_map.mp hm
    exact ⟨fun h => break_notMem_lines text whole hwhole ((trimEnd_sublist whole).subset h),
      trimEnd_trimEnd whole⟩

/-- Tidying leaves the lines that hold something. -/
theorem codeLines_settleBlanks (text : List Char) :
    codeLines (settleBlanks text) = codeLines text := by
  rw [settleBlanks, codeLines_unlines,
    flatMap_codeLines_of_trimmed (trimmed_of_mem_settleLines text), settleLines_filter]
  rfl

/-- Indenting the lines of a text indents those that hold something. -/
theorem codeLines_joinLines_map {f : List Char → String} {spaces : Nat}
    (hf : ∀ line, ∃ k, (f line).toList = List.replicate k ' ' ++ line ∧
      (trimEnd line = [] ∨ k = spaces)) (text : List Char) :
    codeLines (joinLines ((lines text).map f)).toList =
      (codeLines text).map (List.replicate spaces ' ' ++ ·) := by
  have hlines := break_notMem_lines text
  rw [codeLines_joinLines, List.flatMap_map, codeLines]
  generalize lines text = ls at hlines ⊢
  induction ls with
  | nil => rfl
  | cons line rest ih =>
    obtain ⟨hbreak, hrest⟩ := List.forall_mem_cons.mp hlines
    obtain ⟨k, hline, hk⟩ := hf line
    have hspaces : '\n' ∉ List.replicate k ' ' := fun h => by cases List.eq_of_mem_replicate h
    have hindented : '\n' ∉ List.replicate k ' ' ++ line := fun h =>
      (List.mem_append.mp h).elim hspaces hbreak
    have hblanks : trimEnd (List.replicate k ' ') = [] :=
      trimEnd_eq_nil_iff.mpr fun c hc => by
        rw [List.eq_of_mem_replicate hc]
        rfl
    rw [List.flatMap_cons, ih hrest, hline, codeLines_of_break_notMem hindented, trimEnd_append,
      List.map_cons, List.filter_cons]
    by_cases hblank : trimEnd line = []
    · simp [hblank, hblanks]
    · obtain rfl := hk.resolve_left hblank
      simp [hblank]

theorem codeLines_indentText (content : String) (spaces : Nat) :
    codeLines (indentText content spaces).toList =
      (codeLines content.toList).map (List.replicate spaces ' ' ++ ·) := by
  refine codeLines_joinLines_map (fun line => ?_) content.toList
  rw [String.toList_ofList]
  unfold indentBy
  simp only [trim_isEmpty_iff]
  split
  · next hblank => exact ⟨0, rfl, .inl hblank⟩
  · exact ⟨spaces, rfl, .inr rfl⟩

theorem codeLines_indentBlock (block : String) : codeLines (indentBlock block).toList =
    (codeLines block.toList).map (List.replicate 2 ' ' ++ ·) := by
  rw [indentBlock, linesOf, List.map_map]
  refine codeLines_joinLines_map (fun line => ?_) block.toList
  simp only [Function.comp_apply, indentLine]
  split
  · next hempty =>
    obtain rfl : line = [] := by simpa using hempty
    exact ⟨0, rfl, .inl rfl⟩
  · exact ⟨2, by simp, .inr rfl⟩

theorem exists_last_line (text : List Char) :
    '\n' ∉ text ∨ ∃ before last, text = before ++ '\n' :: last ∧ '\n' ∉ last := by
  by_cases h : '\n' ∈ text
  · obtain ⟨last, before, hsplit, hlast⟩ := List.eq_append_cons_of_mem (List.mem_reverse.mpr h)
    refine .inr ⟨before.reverse, last.reverse, ?_, by simpa using hlast⟩
    simpa using congrArg List.reverse hsplit
  · exact .inl h

/-- What begins with something visible has a first line, in which it follows what stands on one line
before it. -/
theorem exists_codeLines_append {c : Char} (hc : ¬ isBlank c) (rest : List Char) :
    ∃ first more, ∀ before, '\n' ∉ before →
      codeLines (before ++ c :: rest) = (before ++ first) :: more := by
  have hline {line : List Char} (hm : c ∈ line) (hbreak : '\n' ∉ line) (before : List Char)
      (h : '\n' ∉ before) : codeLines (before ++ line) = [before ++ trimEnd line] := by
    have hfull : trimEnd line ≠ [] := fun hnil => hc (trimEnd_eq_nil_iff.mp hnil c hm)
    have hall : '\n' ∉ before ++ line := fun hm => (List.mem_append.mp hm).elim h hbreak
    rw [codeLines_of_break_notMem hall, trimEnd_append, if_neg hfull,
      if_neg (List.append_ne_nil_of_right_ne_nil _ hfull)]
  by_cases hbreak : '\n' ∈ c :: rest
  · obtain ⟨line, tail, hsplit, hfree⟩ := List.eq_append_cons_of_mem hbreak
    have hm : c ∈ line := by
      cases line with
      | nil =>
        obtain rfl : c = '\n' := (List.cons.inj hsplit).1
        exact absurd rfl hc
      | cons d line =>
        obtain rfl : c = d := (List.cons.inj hsplit).1
        exact List.mem_cons_self
    refine ⟨trimEnd line, codeLines tail, fun before h => ?_⟩
    rw [hsplit, ← List.append_assoc, codeLines_append_break, hline hm hfree before h]
    rfl
  · exact ⟨trimEnd (c :: rest), [], hline List.mem_cons_self hbreak⟩

/-- The last line of a text ends as the text does. -/
theorem codeLines_append_closing {closing : List Char} (hbreak : '\n' ∉ closing)
    (htrim : trimEnd closing = closing) (hne : closing ≠ []) (text : List Char) :
    ∃ before last, codeLines (text ++ closing) = before ++ [last ++ closing] := by
  have hclosing (line : List Char) (h : '\n' ∉ line) :
      codeLines (line ++ closing) = [line ++ closing] := by
    have hline : '\n' ∉ line ++ closing := fun hm => (List.mem_append.mp hm).elim h hbreak
    rw [codeLines_of_break_notMem hline, trimEnd_append, htrim, if_neg hne,
      if_neg (List.append_ne_nil_of_right_ne_nil _ hne)]
  rcases exists_last_line text with h | ⟨before, last, rfl, h⟩
  · exact ⟨[], text, hclosing text h⟩
  · refine ⟨codeLines before, last, ?_⟩
    rw [List.append_assoc, List.cons_append, codeLines_append_break, hclosing last h]

end Lines

end Pagewright
