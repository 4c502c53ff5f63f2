import Pagewright.Proofs.Source.CodeLines

/-! What tidying makes of the lines of a source: those that hold something stay in order, with one
empty line between two of them where there were any. -/

namespace Pagewright

/-- A line with nothing visible in it. -/
def IsBlankLine (line : List Char) : Prop := ∀ c ∈ line, isBlank c

instance (line : List Char) : Decidable (IsBlankLine line) :=
  inferInstanceAs (Decidable (∀ c ∈ line, isBlank c))

/-- The lines that are not blank. -/
def heldLines (ls : List (List Char)) : List (List Char) := ls.filter fun line => ¬ IsBlankLine line

/-- The lines without the blanks at their ends, as far as something is left of them. -/
def trimmedLines (ls : List (List Char)) : List (List Char) :=
  (ls.map trimEnd).filter fun line => line ≠ []

/-- A text that holds the lines of a source in normal form. -/
structure Tidied (source text : List Char) : Prop where
  keeps : heldLines (lines text) = trimmedLines (lines source)
  /-- Two lines with only blank ones between them are found again in their places, with one empty
  line between them if there were any. -/
  spaces {above blanks below : List (List Char)} {first second : List Char} :
    lines source = above ++ first :: (blanks ++ second :: below) → ¬ IsBlankLine first →
      (∀ line ∈ blanks, IsBlankLine line) → ¬ IsBlankLine second →
      ∃ above' below', lines text =
          above' ++ trimEnd first :: ((if blanks = [] then [] else [[]]) ++
            trimEnd second :: below') ∧
        heldLines above' = trimmedLines above ∧ heldLines below' = trimmedLines below
  begins : ∀ line ∈ (lines text).head?, ¬ IsBlankLine line
  ends : ∀ line ∈ (lines text).getLast?, ¬ IsBlankLine line
  trimmed : ∀ line ∈ lines text, ∀ c ∈ line.getLast?, ¬ isBlank c
  /-- Lines end in a line feed alone. -/
  broken : text = unlines (lines text)
  empty : (∀ line ∈ lines source, IsBlankLine line) → text = []
  closed : (∃ line ∈ lines source, ¬ IsBlankLine line) →
    ∃ body c, text = body ++ [c, '\n'] ∧ c ≠ '\n'

section Lines

variable {line rest : List Char} {ls : List (List Char)}

/-- A carriage return before the break belongs to the line ending. -/
theorem exists_lines_break (h : '\n' ∉ line) :
    ∃ kept, lines (line ++ ['\n']) = [kept] ∧ (line = kept ∨ line = kept ++ ['\r']) := by
  induction line with
  | nil => exact ⟨[], by simp [lines], .inl rfl⟩
  | cons c line ih =>
    obtain ⟨hc, hline⟩ := not_or.mp (mt List.mem_cons.mpr h)
    cases line with
    | nil =>
      rw [List.cons_append, List.nil_append, lines_char_break (Ne.symm hc)]
      by_cases hreturn : c = '\r'
      · exact ⟨[], by simp [hreturn, lines], .inr (by rw [hreturn]; rfl)⟩
      · exact ⟨[c], by simp [hreturn, lines], .inl rfl⟩
    | cons d line =>
      obtain ⟨kept, hlines, hkept⟩ := ih hline
      have hreturn (tail : List Char) : c = '\r' → d :: line = '\n' :: tail → False := by
        rintro - htail
        exact hline (htail ▸ List.mem_cons_self)
      refine ⟨c :: kept, ?_, ?_⟩
      · rw [List.cons_append, lines_cons_append (Ne.symm hc) hreturn (List.cons_ne_nil d line),
          hlines]
      · exact hkept.imp (congrArg (c :: ·)) (congrArg (c :: ·))

theorem trimEnd_lines_break (h : '\n' ∉ line) (rest : List Char) :
    (lines (line ++ '\n' :: rest)).map trimEnd = trimEnd line :: (lines rest).map trimEnd := by
  obtain ⟨kept, hlines, hkept⟩ := exists_lines_break h
  have htrim : trimEnd kept = trimEnd line := by
    rcases hkept with rfl | rfl
    · rfl
    · rw [trimEnd_append]
      rfl
  rw [lines_append_break, hlines, List.map_append, List.map_singleton, htrim]
  rfl

/-- Lines without blanks at their ends are the lines of the text that they make up. -/
theorem lines_unlines (h : ∀ line ∈ ls, '\n' ∉ line ∧ trimEnd line = line) :
    lines (unlines ls) = ls := by
  induction ls with
  | nil => rfl
  | cons line rest ih =>
    obtain ⟨⟨hbreak, htrim⟩, hrest⟩ := List.forall_mem_cons.mp h
    obtain ⟨kept, hlines, rfl | rfl⟩ := exists_lines_break hbreak
    · rw [unlines_cons, lines_append_break, hlines, ih hrest, List.singleton_append]
    · have hshort := (trimEnd_sublist kept).length_le
      rw [trimEnd_append] at htrim
      have := congrArg List.length htrim
      simp [show trimEnd ['\r'] = [] from rfl] at this
      omega

theorem trimEnd_ne_nil_iff : trimEnd line ≠ [] ↔ ¬ IsBlankLine line :=
  not_congr trimEnd_eq_nil_iff

theorem not_isBlank_getLast_trimEnd (line : List Char) :
    ∀ c ∈ (trimEnd line).getLast?, ¬ isBlank c := by
  intro c hc
  rw [trimEnd, List.getLast?_reverse, Option.mem_def] at hc
  have := List.head?_dropWhile_not isBlank line.reverse
  simp_all

theorem heldLines_eq (h : ∀ line ∈ ls, trimEnd line = line) :
    heldLines ls = ls.filter fun line => line ≠ [] := by
  refine List.filter_congr fun line hm => decide_eq_decide.mpr ?_
  rw [← trimEnd_ne_nil_iff, h line hm]

end Lines

section Settle

variable {kept gap : Bool} {x y : List Char} {a blanks : List (List Char)}

theorem settleLines_line (hx : x ≠ []) (rest : List (List Char)) :
    settleLines kept gap (x :: rest) =
      (if gap then [[]] else []) ++ x :: settleLines true false rest := by
  cases x with
  | nil => exact absurd rfl hx
  | cons c x => rfl

/-- Behind a line that holds something it makes no difference what stands before it. -/
theorem settleLines_append (hx : x ≠ []) (rest : List (List Char)) :
    settleLines kept gap (a ++ x :: rest) =
      settleLines kept gap (a ++ [x]) ++ settleLines true false rest := by
  induction a generalizing kept gap with
  | nil => rw [List.nil_append, List.nil_append, settleLines_line hx, settleLines_line hx,
      List.append_assoc]; rfl
  | cons line a ih =>
    by_cases hline : line = []
    · subst hline
      exact ih
    · rw [List.cons_append, List.cons_append, settleLines_line hline, settleLines_line hline, ih,
        List.append_assoc, List.cons_append]

private theorem exists_settleLines_concat (kept gap : Bool) (a : List (List Char)) (hx : x ≠ []) :
    ∃ before, settleLines kept gap (a ++ [x]) = before ++ [x] := by
  induction a generalizing kept gap with
  | nil => exact ⟨_, settleLines_line hx []⟩
  | cons line a ih =>
    by_cases hline : line = []
    · subst hline
      exact ih kept kept
    · obtain ⟨before, hbefore⟩ := ih true false
      refine ⟨(if gap then [[]] else []) ++ line :: before, ?_⟩
      rw [List.cons_append, settleLines_line hline, hbefore, List.append_assoc, List.cons_append]

/-- A line that holds something stands behind those of the lines before it that do. -/
theorem settleLines_concat (kept gap : Bool) (a : List (List Char)) (hx : x ≠ []) :
    ∃ before, settleLines kept gap (a ++ [x]) = before ++ [x] ∧
      (before.filter fun line => line ≠ []) = a.filter fun line => line ≠ [] := by
  obtain ⟨before, hbefore⟩ := exists_settleLines_concat kept gap a hx
  refine ⟨before, hbefore, ?_⟩
  have hfilter := settleLines_filter kept gap (a ++ [x])
  rw [hbefore, List.filter_append, List.filter_append] at hfilter
  exact List.append_cancel_right hfilter

theorem settleLines_blanks (hblanks : ∀ line ∈ blanks, line = []) (hy : y ≠ [])
    (rest : List (List Char)) : settleLines true gap (blanks ++ y :: rest) =
      (if gap = true ∨ blanks ≠ [] then [[]] else []) ++ y :: settleLines true false rest := by
  induction blanks generalizing gap with
  | nil => simp [settleLines_line hy]
  | cons line blanks ih =>
    obtain ⟨rfl, hrest⟩ := List.forall_mem_cons.mp hblanks
    rw [List.cons_append, settleLines, ih hrest]
    simp

/-- Settled lines stay as they are. -/
theorem settleLines_settled (gap : Bool) (ls : List (List Char)) :
    settleLines true false (settleLines true gap ls) = settleLines true gap ls := by
  induction ls generalizing gap with
  | nil => rfl
  | cons line rest ih =>
    by_cases hline : line = []
    · subst hline
      exact ih true
    · rw [settleLines_line hline]
      cases gap <;> simp [settleLines, settleLines_line hline, ih]

theorem settleLines_settled_start (ls : List (List Char)) :
    settleLines false false (settleLines false false ls) = settleLines false false ls := by
  induction ls with
  | nil => rfl
  | cons line rest ih =>
    by_cases hline : line = []
    · subst hline
      exact ih
    · simp [settleLines_line hline, settleLines_settled]

theorem settleLines_of_blank (hblanks : ∀ line ∈ blanks, line = []) :
    settleLines kept gap blanks = [] := by
  induction blanks generalizing gap with
  | nil => rfl
  | cons line blanks ih =>
    obtain ⟨rfl, hrest⟩ := List.forall_mem_cons.mp hblanks
    exact ih hrest

theorem head?_settleLines (ls : List (List Char)) :
    (settleLines false false ls).head? ≠ some [] := by
  induction ls with
  | nil => nofun
  | cons line rest ih =>
    by_cases hline : line = []
    · subst hline
      exact ih
    · simp [settleLines_line hline, hline]

theorem getLast?_settleLines (kept gap : Bool) (ls : List (List Char)) :
    (settleLines kept gap ls).getLast? ≠ some [] := by
  induction ls generalizing kept gap with
  | nil => nofun
  | cons line rest ih =>
    by_cases hline : line = []
    · subst hline
      exact ih kept kept
    · have htail := ih true false
      rw [settleLines_line hline, List.getLast?_append_cons, List.getLast?_cons]
      cases hlast : (settleLines true false rest).getLast? with
      | none => simpa using hline
      | some last => simpa [hlast] using htail

end Settle

section Tidy

variable {source text : List Char}

theorem lines_settleBlanks (source : List Char) :
    lines (settleBlanks source) = settleLines false false ((lines source).map trimEnd) :=
  lines_unlines (trimmed_of_mem_settleLines source)

/-- The first line of a settled text is the first that holds something. -/
theorem head?_lines_settleBlanks (source : List Char) :
    (lines (settleBlanks source)).head? = (codeLines source).head? := by
  have hcode : codeLines source =
      (lines (settleBlanks source)).filter fun line => line ≠ [] := by
    rw [lines_settleBlanks, settleLines_filter]
    rfl
  have hfirst := head?_settleLines ((lines source).map trimEnd)
  rw [hcode]
  rw [← lines_settleBlanks] at hfirst
  cases hlines : lines (settleBlanks source) with
  | nil => rfl
  | cons first rest =>
    have hne : first ≠ [] := by simpa [hlines] using hfirst
    rw [List.filter_cons_of_pos (by simpa using hne), List.head?_cons, List.head?_cons]

private theorem trimmed_lines (source : List Char) :
    ∀ line ∈ lines (settleBlanks source), trimEnd line = line := by
  rw [lines_settleBlanks]
  exact fun line hm => (trimmed_of_mem_settleLines source line hm).2

/-- Settled blanks stay as they are. -/
theorem settleBlanks_settleBlanks (source : List Char) :
    settleBlanks (settleBlanks source) = settleBlanks source := by
  rw [settleBlanks, List.map_congr_left (trimmed_lines source), List.map_id',
    lines_settleBlanks, settleLines_settled_start]
  rfl

private theorem settleBlanks_spaces {above blanks below : List (List Char)}
    {first second : List Char}
    (hsource : lines source = above ++ first :: (blanks ++ second :: below))
    (hfirst : ¬ IsBlankLine first) (hblanks : ∀ line ∈ blanks, IsBlankLine line)
    (hsecond : ¬ IsBlankLine second) : ∃ above' below', lines (settleBlanks source) =
        above' ++ trimEnd first ::
          ((if blanks = [] then [] else [[]]) ++ trimEnd second :: below') ∧
      heldLines above' = trimmedLines above ∧ heldLines below' = trimmedLines below := by
  have hempty : ∀ line ∈ blanks.map trimEnd, line = [] := by
    intro line hm
    obtain ⟨blank, hblank, rfl⟩ := List.mem_map.mp hm
    exact trimEnd_eq_nil_iff.mpr (hblanks blank hblank)
  obtain ⟨above', habove, hheld⟩ := settleLines_concat false false (above.map trimEnd)
    (trimEnd_ne_nil_iff.mpr hfirst)
  have hlines : lines (settleBlanks source) = above' ++ trimEnd first ::
      ((if blanks = [] then [] else [[]]) ++ trimEnd second ::
        settleLines true false (below.map trimEnd)) := by
    rw [lines_settleBlanks, hsource, List.map_append, List.map_cons, List.map_append, List.map_cons,
      settleLines_append (trimEnd_ne_nil_iff.mpr hfirst), habove,
      settleLines_blanks hempty (trimEnd_ne_nil_iff.mpr hsecond), List.append_assoc]
    simp
  have htrimmed := trimmed_lines source
  rw [hlines] at htrimmed
  refine ⟨above', _, hlines, ?_, ?_⟩
  · rw [heldLines_eq fun line hm => htrimmed line (List.mem_append_left _ hm), hheld]
    rfl
  · rw [heldLines_eq fun line hm => htrimmed line (by simp [hm]), settleLines_filter]
    rfl

/-- A settled line that is not empty holds something. -/
private theorem not_isBlankLine_of_mem {line : List Char} (hm : line ∈ lines (settleBlanks source))
    (hne : line ≠ []) : ¬ IsBlankLine line := by
  rw [← trimEnd_ne_nil_iff, trimmed_lines source line hm]
  exact hne

private theorem settleBlanks_closed (h : ∃ line ∈ lines source, ¬ IsBlankLine line) :
    ∃ body c, settleBlanks source = body ++ [c, '\n'] ∧ c ≠ '\n' := by
  have hlines : lines (settleBlanks source) ≠ [] := by
    obtain ⟨line, hm, hline⟩ := h
    obtain ⟨above, below, hsource⟩ := List.append_of_mem hm
    rw [lines_settleBlanks, hsource, List.map_append, List.map_cons,
      settleLines_append (trimEnd_ne_nil_iff.mpr hline)]
    obtain ⟨before, hbefore, -⟩ := settleLines_concat false false (above.map trimEnd)
      (trimEnd_ne_nil_iff.mpr hline)
    simp [hbefore]
  obtain ⟨before, last, hlast⟩ := (List.eq_nil_or_concat' _).resolve_left hlines
  have hmem : last ∈ lines (settleBlanks source) := by simp [hlast]
  have hne : last ≠ [] := fun hnil =>
    getLast?_settleLines false false ((lines source).map trimEnd)
      (by rw [← lines_settleBlanks, hlast, List.getLast?_concat, hnil])
  obtain ⟨front, c, rfl⟩ := (List.eq_nil_or_concat' last).resolve_left hne
  refine ⟨unlines before ++ front, c, ?_, ?_⟩
  · have htext : settleBlanks source = unlines (lines (settleBlanks source)) := by
      rw [lines_settleBlanks]
      rfl
    rw [htext, hlast]
    simp [unlines]
  · rintro rfl
    exact break_notMem_lines _ _ hmem (by simp)

theorem tidy_eq_ok_iff :
    tidy source = .ok text ↔ checkBraces source = .ok () ∧ settleBlanks source = text := by
  unfold tidy
  split <;> simp [*]

/-- A tidied source holds its lines in normal form. -/
theorem tidied_of_tidy (h : tidy source = .ok text) : Tidied source text := by
  obtain ⟨-, rfl⟩ := tidy_eq_ok_iff.mp h
  have hlines := lines_settleBlanks source
  refine { spaces := settleBlanks_spaces, closed := settleBlanks_closed, keeps := ?keeps,
           begins := ?begins, ends := ?ends, trimmed := ?trimmed, broken := ?broken,
           empty := ?empty }
  case keeps =>
    rw [heldLines_eq (trimmed_lines source), hlines, settleLines_filter]
    rfl
  case begins =>
    intro line hm
    refine not_isBlankLine_of_mem (List.mem_of_mem_head? hm) ?_
    rintro rfl
    exact head?_settleLines _ (hlines ▸ hm)
  case ends =>
    intro line hm
    refine not_isBlankLine_of_mem (List.mem_of_mem_getLast? hm) ?_
    rintro rfl
    exact getLast?_settleLines _ _ _ (hlines ▸ hm)
  case trimmed =>
    intro line hm
    rw [← trimmed_lines source line hm]
    exact not_isBlank_getLast_trimEnd line
  case broken =>
    rw [hlines]
    rfl
  case empty =>
    intro hblank
    rw [settleBlanks, settleLines_of_blank]
    · rfl
    · intro line hm
      obtain ⟨whole, hwhole, rfl⟩ := List.mem_map.mp hm
      exact trimEnd_eq_nil_iff.mpr (hblank whole hwhole)

/-- Carriage returns, blanks of several kinds, and empty lines at both ends and in a row. -/
private def patchwork : List Char :=
  "\n \t\nlet a = \x7b \r\n\u3000\r\n\n  b: '\\ ',\u00a0\n\x7d\x0b\n\n".toList

private def patchworkTidied : List Char :=
  "let a = \x7b\n\n  b: '\\ ',\n\x7d\n".toList

theorem patchwork_tidied :
    tidy patchwork = .ok patchworkTidied ∧ Tidied patchwork patchworkTidied := by
  have h : tidy patchwork = .ok patchworkTidied := by decide
  exact ⟨h, tidied_of_tidy h⟩

end Tidy

end Pagewright
