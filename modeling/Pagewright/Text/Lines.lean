/-!
Lines of a text. A line feed ends a line, a carriage return right before it belongs to the
ending, and text after the last line feed is a line of its own only when there is some.
-/

namespace Pagewright

/-- The lines of a text, without their endings. -/
def lines : List Char → List (List Char)
  | [] => []
  | '\n' :: rest => [] :: lines rest
  | '\r' :: '\n' :: rest => [] :: lines rest
  | c :: rest =>
    match lines rest with
    | [] => [[c]]
    | first :: more => (c :: first) :: more

def linesOf (s : String) : List String := (lines s.toList).map String.ofList

/-- The pieces in order, with the separator between neighbours. -/
def joinWith (separator : String) : List String → String
  | [] => ""
  | [piece] => piece
  | piece :: rest => piece ++ separator ++ joinWith separator rest

section Joining

variable (separator : String)

theorem joinWith_cons (piece : String) {rest : List String} (h : rest ≠ []) :
    joinWith separator (piece :: rest) = piece ++ separator ++ joinWith separator rest := by
  cases rest with
  | nil => exact absurd rfl h
  | cons next more => rfl

theorem joinWith_concat (last : String) {pieces : List String} (h : pieces ≠ []) :
    joinWith separator (pieces ++ [last]) = joinWith separator pieces ++ separator ++ last := by
  induction pieces with
  | nil => exact absurd rfl h
  | cons piece rest ih =>
    cases rest with
    | nil => rfl
    | cons next more =>
      have hmore := List.cons_ne_nil next more
      rw [List.cons_append, joinWith_cons _ _ (List.append_ne_nil_of_left_ne_nil hmore _), ih hmore,
        joinWith_cons _ _ hmore]
      simp only [String.append_assoc]

/-- All pieces but the last one have the separator behind them. -/
theorem toList_joinWith_concat (pieces : List String) (last : String) :
    (joinWith separator (pieces ++ [last])).toList =
      pieces.flatMap (fun piece => piece.toList ++ separator.toList) ++ last.toList := by
  induction pieces with
  | nil => rfl
  | cons piece rest ih =>
    have hrest := List.append_ne_nil_of_right_ne_nil rest (List.cons_ne_nil last [])
    rw [List.cons_append, joinWith_cons _ _ hrest, String.toList_append, String.toList_append, ih,
      List.flatMap_cons, ← List.append_assoc]

end Joining

def joinLines (pieces : List String) : String := joinWith "\n" pieces

/-- Puts two spaces before a line unless it is empty. -/
def indentLine (line : String) : String := if line = "" then "" else "  " ++ line

/-- Moves a block two spaces to the right and leaves its empty lines empty. -/
def indentBlock (block : String) : String := joinLines ((linesOf block).map indentLine)

end Pagewright
