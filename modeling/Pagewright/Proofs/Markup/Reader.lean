import Pagewright.Proofs.Source.Reading
import Pagewright.Proofs.Source.Reflow
import Pagewright.Text.Blank

/-!
A reader of markup. It reads tags with their attributes, running text and expressions in braces,
nests the elements, and notes of each its tag and the values of one attribute. Attribute values
are in double quotation marks, without escapes, or expressions; in expressions strings and
comments are skipped. Whatever else it comes upon it refuses: a closing tag that does not match
the innermost open one, running text outside all elements, or a mark where none may stand.
-/

namespace Pagewright

/-- A tag as it is read, with attribute values as they stand between their marks. -/
structure Tag where
  name : List Char
  attributes : List (List Char × List Char)

/-- Elements as they are nested, of each its tag and the values of an attribute. -/
inductive Outline where
  | node (tag : String) (values : List String) (children : List Outline)

namespace Tag

def addAll (tag : Tag) (entries : List (List Char × List Char)) : Tag :=
  { tag with attributes := tag.attributes ++ entries }

/-- The values that entries give to an attribute, in order. -/
def valuesOf (key : String) (entries : List (List Char × List Char)) : List String :=
  (entries.filter fun entry => entry.1 = key.toList).map fun entry => String.ofList entry.2

def outline (key : String) (tag : Tag) (children : List Outline) : Outline :=
  .node (String.ofList tag.name) (valuesOf key tag.attributes) children

end Tag

/-- Where a reader stands in markup. -/
inductive MarkupMode where
  /-- In running text. -/
  | text
  /-- Between the braces of an expression in running text. -/
  | expression (r : Reading)
  /-- Right after an opening angle bracket. -/
  | angle
  /-- In a closing tag, of which some of the name is read. -/
  | closing (name : List Char)
  /-- In the name of a tag. -/
  | name (name : List Char)
  /-- In a tag, where an attribute or the end may follow. -/
  | inside (tag : Tag)
  /-- In the name of an attribute. -/
  | attributeName (tag : Tag) (name : List Char)
  /-- Right after the equals sign of an attribute. -/
  | equals (tag : Tag) (name : List Char)
  /-- In an attribute value in quotation marks. -/
  | quoted (tag : Tag) (name value : List Char)
  /-- In an attribute value in braces. -/
  | braced (tag : Tag) (name value : List Char) (r : Reading)
  /-- In a tag, right after the slash that has to be its end. -/
  | slash (tag : Tag)

/-- Only in running text a line break says nothing. -/
def MarkupMode.allowsBreak : MarkupMode → Bool
  | text => true
  | _ => false

/-- Characters of the names of tags and attributes. -/
def isNameChar (c : Char) : Bool := c.isAlphanum || c = '-' || c = '.' || c = '_' || c = ':'

/-- The state of the reader: the mode, the elements read so far at the current depth, and the
open tags from the innermost out, each with the elements read before it at its own depth. -/
structure MarkupScan where
  mode : MarkupMode
  siblings : List Outline
  opened : List (Tag × List Outline)

namespace MarkupScan

variable (key : String)

def start : MarkupScan := ⟨.text, [], []⟩

def toMode (s : MarkupScan) (mode : MarkupMode) : MarkupScan := { s with mode := mode }

def openTag (s : MarkupScan) (tag : Tag) : MarkupScan := ⟨.text, [], (tag, s.siblings) :: s.opened⟩

/-- Adds an element that its tag also closes. -/
def addClosed (s : MarkupScan) (tag : Tag) : MarkupScan :=
  ⟨.text, s.siblings ++ [tag.outline key []], s.opened⟩

/-- Closes the innermost open tag, if it has the name. -/
def closeTag? (s : MarkupScan) (name : List Char) : Option MarkupScan :=
  match s.opened with
  | [] => none
  | (tag, before) :: opened =>
    if tag.name = name then some ⟨.text, before ++ [tag.outline key s.siblings], opened⟩ else none

/-- Reads a character of running text, which has to lie in an element unless it is blank. -/
def readText? (s : MarkupScan) (c : Char) : Option MarkupScan :=
  if c = '<' then some (s.toMode .angle)
  else if isBlank c then some s
  else if s.opened.isEmpty || c = '>' || c = '\x7d' then none
  else if c = '\x7b' then some (s.toMode (.expression ⟨.code, 0⟩))
  else some s

/-- Reads a character of a tag after its name or an attribute. -/
def readTag? (s : MarkupScan) (tag : Tag) (c : Char) : Option MarkupScan :=
  if isBlank c then some (s.toMode (.inside tag))
  else if c = '>' then some (s.openTag tag)
  else if c = '/' then some (s.toMode (.slash tag))
  else if isNameChar c then some (s.toMode (.attributeName tag [c]))
  else none

/-- Reads the next character. An expression ends at the brace that closes more than are open. -/
def step? (s : MarkupScan) (c : Char) : Option MarkupScan :=
  match s.mode with
  | .text => s.readText? c
  | .expression r => some (s.toMode (((r.step? c).map .expression).getD .text))
  | .angle =>
    if c = '/' then some (s.toMode (.closing []))
    else if isNameChar c then some (s.toMode (.name [c])) else none
  | .closing name =>
    if c = '>' then s.closeTag? key name
    else if isNameChar c then some (s.toMode (.closing (name ++ [c]))) else none
  | .name name =>
    if isNameChar c then some (s.toMode (.name (name ++ [c]))) else s.readTag? ⟨name, []⟩ c
  | .inside tag => s.readTag? tag c
  | .attributeName tag name =>
    if c = '=' then some (s.toMode (.equals tag name))
    else if isNameChar c then some (s.toMode (.attributeName tag (name ++ [c]))) else none
  | .equals tag name =>
    if c = '"' then some (s.toMode (.quoted tag name []))
    else if c = '\x7b' then some (s.toMode (.braced tag name [] ⟨.code, 0⟩)) else none
  | .quoted tag name value =>
    if c = '"' then some (s.toMode (.inside (tag.addAll [(name, value)])))
    else some (s.toMode (.quoted tag name (value ++ [c])))
  | .braced tag name value r =>
    some (s.toMode (((r.step? c).map (.braced tag name (value ++ [c]))).getD
      (.inside (tag.addAll [(name, value)]))))
  | .slash tag => if c = '>' then some (s.addClosed key tag) else none

/-- Reads a piece of markup. -/
def run? (s : MarkupScan) (text : List Char) : Option MarkupScan := text.foldlM (step? key) s

/-- Reads the next character, unless it breaks a line outside running text. -/
def calmStep? (s : MarkupScan) (c : Char) : Option MarkupScan :=
  if c = '\n' && !s.mode.allowsBreak then none else s.step? key c

/-- Reads a piece of markup with line breaks in running text only. -/
def calmRun? (s : MarkupScan) (text : List Char) : Option MarkupScan :=
  text.foldlM (calmStep? key) s

end MarkupScan

/-- The elements of a markup text, if it consists of elements and blanks alone. -/
def outlines? (key : String) (text : String) : Option (List Outline) :=
  (MarkupScan.start.run? key text.toList).bind fun s =>
    match s with
    | ⟨.text, elements, []⟩ => some elements
    | _ => none

example : outlines? "id" "<p id=\"a\">\x7b'</p>'\x7d</p>\n" = some [.node "p" ["a"] []] := rfl

example : outlines? "id" "<p><b></p></b>" = none := rfl

namespace MarkupScan

variable {key : String} {s s' next : MarkupScan} {text : List Char} {c : Char}

@[simp] theorem calmRun?_nil (s : MarkupScan) : s.calmRun? key [] = some s := rfl

@[simp] theorem calmRun?_cons (s : MarkupScan) (c : Char) (rest : List Char) :
    s.calmRun? key (c :: rest) = (s.calmStep? key c).bind fun next => next.calmRun? key rest := by
  rw [calmRun?, List.foldlM_cons]
  rfl

theorem calmRun?_append (s : MarkupScan) (a b : List Char) :
    s.calmRun? key (a ++ b) = (s.calmRun? key a).bind fun next => next.calmRun? key b := by
  rw [calmRun?, List.foldlM_append]
  rfl

theorem run?_of_calmRun? (h : s.calmRun? key text = some s') : s.run? key text = some s' := by
  induction text generalizing s with
  | nil => exact h
  | cons c rest ih =>
    rw [calmRun?_cons] at h
    obtain ⟨next, hc, hrest⟩ := Option.bind_eq_some_iff.mp h
    have hstep : s.step? key c = some next := by
      rw [calmStep?] at hc
      split at hc
      · cases hc
      · exact hc
    rw [run?, List.foldlM_cons, hstep]
    exact ih hrest

theorem calmStep?_eq (h : c ≠ '\n') (s : MarkupScan) : s.calmStep? key c = s.step? key c := by
  simp [calmStep?, h]

/-- In running text a blank changes nothing. -/
theorem calmStep?_blank (hc : isBlank c) (siblings : List Outline)
    (opened : List (Tag × List Outline)) :
    calmStep? key ⟨.text, siblings, opened⟩ c = some ⟨.text, siblings, opened⟩ := by
  have hangle : c ≠ '<' := by
    rintro rfl
    revert hc
    decide
  simp [calmStep?, MarkupMode.allowsBreak, step?, readText?, hangle, hc]

theorem not_isNameChar_of_isBlank (hc : isBlank c) : ¬ isNameChar c := by
  have hne (d : Char) (hd : isBlank d = false) : c ≠ d := fun e => by
    rw [e, hd] at hc
    cases hc
  have halphanum : ¬ c.isAlphanum := fun h => not_isBlank_of_isAlphanum h hc
  simp [isNameChar, halphanum, hne '-' rfl, hne '.' rfl, hne '_' rfl, hne ':' rfl]

private theorem exists_step? (hc : c ≠ '\x7d') (r : Reading) : ∃ next, r.step? c = some next := by
  unfold Reading.step? Reading.readCode?
  rw [if_neg hc]
  split
  · split <;> exact ⟨_, rfl⟩
  · exact ⟨_, rfl⟩

/-- A blank leads to running text only from there. -/
theorem eq_of_calmStep?_blank (hc : isBlank c) (h : s.calmStep? key c = some s')
    (htext : s'.mode = .text) : s' = s := by
  have hne (d : Char) (hd : isBlank d = false) : c ≠ d := fun e => by
    rw [e, hd] at hc
    cases hc
  have hname := not_isNameChar_of_isBlank hc
  obtain ⟨mode, siblings, opened⟩ := s
  have hstep : step? key ⟨mode, siblings, opened⟩ c = some s' := by
    rw [calmStep?] at h
    split at h
    · cases h
    · exact h
  cases mode with
  | text =>
    rw [calmStep?_blank hc] at h
    exact (Option.some.inj h).symm
  | expression r =>
    obtain ⟨next, hnext⟩ := exists_step? (hne '\x7d' rfl) r
    simp only [step?, hnext] at hstep
    obtain rfl := Option.some.inj hstep
    cases htext
  | braced tag name value r =>
    obtain ⟨next, hnext⟩ := exists_step? (hne '\x7d' rfl) r
    simp only [step?, hnext] at hstep
    obtain rfl := Option.some.inj hstep
    cases htext
  | angle =>
    simp [step?, hne '/' rfl, hname] at hstep
  | closing name =>
    simp [step?, hne '>' rfl, hname] at hstep
  | name name | inside tag =>
    simp only [step?, readTag?, hname, hc, if_true, Bool.false_eq_true, if_false] at hstep
    obtain rfl := Option.some.inj hstep
    cases htext
  | attributeName tag name =>
    simp [step?, hne '=' rfl, hname] at hstep
  | equals tag name =>
    simp [step?, hne '"' rfl, hne '\x7b' rfl] at hstep
  | quoted tag name value =>
    simp only [step?, hne '"' rfl, if_false] at hstep
    obtain rfl := Option.some.inj hstep
    cases htext
  | slash tag =>
    simp [step?, hne '>' rfl] at hstep

theorem calmStep?_break (h : s.calmStep? key '\n' = some s') :
    s.mode = .text ∧ s' = s := by
  obtain ⟨mode, siblings, opened⟩ := s
  cases mode with
  | text =>
    rw [calmStep?_blank (by decide)] at h
    exact ⟨rfl, (Option.some.inj h).symm⟩
  | _ => cases h

theorem isSettled_text (key : String) (siblings : List Outline)
    (opened : List (Tag × List Outline)) :
    IsSettled (calmStep? key) ⟨.text, siblings, opened⟩ :=
  ⟨calmStep?_blank (by decide) siblings opened, calmStep?_blank (by decide) siblings opened⟩

/-- The reader skips the margins of lines. -/
theorem skipsMargins (key : String) : SkipsMargins (calmStep? key) fun _ => True where
  keeps _ _ := trivial
  settles {s s'} _ h := by
    obtain ⟨htext, rfl⟩ := calmStep?_break h
    obtain ⟨mode, siblings, opened⟩ := s'
    subst htext
    exact isSettled_text key siblings opened
  carriage {s next s'} _ hreturn hbreak := by
    obtain ⟨htext, rfl⟩ := calmStep?_break hbreak
    obtain rfl := eq_of_calmStep?_blank (by decide) hreturn htext
    exact hbreak

end MarkupScan

end Pagewright
