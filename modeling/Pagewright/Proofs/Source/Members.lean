import Pagewright.Proofs.Source.Balance
import Pagewright.Proofs.Source.CodeLines
import Pagewright.Proofs.Source.Reflow

/-!
A reader of members, which are names with values: those of the object that code assigns first, and
the attributes in a tag. It notes of each the name and the text of the value as it is written.
-/

namespace Pagewright

section Search

/-- The text behind the first occurrence of a nonempty mark. -/
def behindFirst? (mark : List Char) : List Char → Option (List Char)
  | [] => none
  | c :: rest =>
    if mark.isPrefixOf (c :: rest) then some ((c :: rest).drop mark.length)
    else behindFirst? mark rest

variable {mark before rest : List Char} {first second c : Char}

theorem behindFirst?_found (hmark : mark ≠ []) (rest : List Char) :
    behindFirst? mark (mark ++ rest) = some rest := by
  cases mark with
  | nil => exact absurd rfl hmark
  | cons first more =>
    rw [List.cons_append, behindFirst?, if_pos (by simp)]
    simp

theorem behindFirst?_skip (h : first ∉ before) :
    behindFirst? (first :: mark) (before ++ rest) = behindFirst? (first :: mark) rest := by
  induction before with
  | nil => rfl
  | cons b more ih =>
    obtain ⟨hb, hmore⟩ := not_or.mp (mt List.mem_cons.mpr h)
    rw [List.cons_append, behindFirst?, if_neg (by simp [hb]), ih hmore]

/-- Nothing is found as long as the second character of the mark does not come next. -/
theorem behindFirst?_skip_second (h : second ∉ before) (hc : c ≠ second) :
    behindFirst? (first :: second :: mark) (before ++ c :: rest) =
      behindFirst? (first :: second :: mark) (c :: rest) := by
  induction before with
  | nil => rfl
  | cons b more ih =>
    obtain ⟨-, hmore⟩ := not_or.mp (mt List.mem_cons.mpr h)
    have hprefix : ¬ (first :: second :: mark).isPrefixOf (b :: (more ++ c :: rest)) := by
      cases more with
      | nil => simp [Ne.symm hc]
      | cons d more =>
        have hd : second ≠ d := fun heq => hmore (heq ▸ List.mem_cons_self)
        simp [hd]
    rw [List.cons_append, behindFirst?, if_neg hprefix, ih hmore]

end Search

/-- How members are written: the mark between a name and its value, and the mark behind a value. -/
structure MemberMarks where
  colon : Char
  comma : Char
  colon_apart : colon.isAlphanum = false
  comma_apart : comma ≠ '{'

namespace MemberMarks

def object : MemberMarks := ⟨':', ',', rfl, by decide⟩

def tag : MemberMarks := ⟨'=', ' ', rfl, by decide⟩

end MemberMarks

/-- Where a reader of members stands. -/
inductive MemberMode where
  /-- Before a member or the end. -/
  | between
  /-- In the name of a member. -/
  | name (name : List Char)
  /-- In the value of a member. -/
  | value (name read : List Char) (r : Reading)
  /-- Behind the brace that ends the members. -/
  | done

structure MemberScan where
  mode : MemberMode
  members : List (String × String)

/-- A member as it is noted: the text of its value without the blanks around it. -/
def writtenMember (name value : List Char) : String × String :=
  (String.ofList name, String.ofList (trim value))

namespace MemberScan

variable (marks : MemberMarks)

def start : MemberScan := ⟨.between, []⟩

/-- Reads the next character. A value ends at the mark for it outside of all braces and strings, and
before the brace that closes more than are open. -/
def step? (s : MemberScan) (c : Char) : Option MemberScan :=
  match s.mode with
  | .between =>
    if isBlank c then some s
    else if c = '}' then some ⟨.done, s.members⟩
    else if c.isAlphanum then some ⟨.name [c], s.members⟩ else none
  | .name name =>
    if c = marks.colon then some ⟨.value name [] ⟨.code, 0⟩, s.members⟩
    else if c.isAlphanum then some ⟨.name (name ++ [c]), s.members⟩ else none
  | .value name read r =>
    if r = ⟨.code, 0⟩ && c = marks.comma then
      some ⟨.between, s.members ++ [writtenMember name read]⟩
    else match r.step? c with
      | some next => some ⟨.value name (read ++ [c]) next, s.members⟩
      | none => some ⟨.done, s.members ++ [writtenMember name read]⟩
  | .done => some s

def run? (s : MemberScan) (text : List Char) : Option MemberScan := text.foldlM (step? marks) s

end MemberScan

/-- The members of the object that code assigns first, in order. Names are words, and commas in a
value stand in strings or between braces. -/
def assignedMembers? (code : String) : Option (List (String × String)) :=
  (behindFirst? "= \x7b".toList code.toList).bind fun text =>
    match MemberScan.start.run? .object text with
    | some ⟨.done, members⟩ => some members
    | _ => none

/-- The attributes of a text that stands in a tag, in order. Names are words, and the values keep
their quotation marks or braces. -/
def tagMembers? (text : String) : Option (List (String × String)) :=
  match MemberScan.start.run? .tag text.toList with
  | some ⟨.between, members⟩ => some members
  | some ⟨.value name read ⟨.code, 0⟩, members⟩ => some (members ++ [writtenMember name read])
  | _ => none

example : assignedMembers? "let x = \x7b a: \x7b b: [1, 2] \x7d,\n c: \",\" \x7d;" =
    some [("a", "\x7b b: [1, 2] \x7d"), ("c", "\",\"")] := by decide +kernel

example : tagMembers? "id=\"a b\" x=\x7b[\"\x7d\"]\x7d" =
    some [("id", "\"a b\""), ("x", "\x7b[\"\x7d\"]\x7d")] := by decide +kernel

variable {marks : MemberMarks}

namespace MemberScan

variable {members : List (String × String)} {text name read : List Char} {r r' : Reading}

@[simp] theorem run?_nil (s : MemberScan) : s.run? marks [] = some s := rfl

@[simp] theorem run?_cons (s : MemberScan) (c : Char) (rest : List Char) :
    s.run? marks (c :: rest) = (s.step? marks c).bind fun next => next.run? marks rest := by
  rw [run?, List.foldlM_cons]
  rfl

theorem run?_append (s : MemberScan) (a b : List Char) :
    s.run? marks (a ++ b) = (s.run? marks a).bind fun next => next.run? marks b := by
  rw [run?, List.foldlM_append]
  rfl

theorem run?_done (members : List (String × String)) (text : List Char) :
    run? marks ⟨.done, members⟩ text = some ⟨.done, members⟩ := by
  induction text with
  | nil => rfl
  | cons c rest ih => exact ih

theorem run?_blanks (h : ∀ c ∈ text, isBlank c) (members : List (String × String)) :
    run? marks ⟨.between, members⟩ text = some ⟨.between, members⟩ := by
  induction text with
  | nil => rfl
  | cons c rest ih =>
    obtain ⟨hc, hrest⟩ := List.forall_mem_cons.mp h
    rw [run?_cons, step?, if_pos hc]
    exact ih hrest

/-- A name is read as far as the mark behind it. -/
theorem run?_name (hname : name ≠ []) (h : ∀ c ∈ name, c.isAlphanum)
    (members : List (String × String)) : run? marks ⟨.between, members⟩ (name ++ [marks.colon]) =
      some ⟨.value name [] ⟨.code, 0⟩, members⟩ := by
  have hmore (read text : List Char) (htext : ∀ c ∈ text, c.isAlphanum) :
      run? marks ⟨.name read, members⟩ (text ++ [marks.colon]) =
        some ⟨.value (read ++ text) [] ⟨.code, 0⟩, members⟩ := by
    induction text generalizing read with
    | nil => simp [step?]
    | cons c rest ih =>
      obtain ⟨hc, hrest⟩ := List.forall_mem_cons.mp htext
      have hcolon : c ≠ marks.colon := by
        rintro rfl
        exact absurd (marks.colon_apart.symm.trans hc) (by decide)
      have hstep : step? marks ⟨.name read, members⟩ c = some ⟨.name (read ++ [c]), members⟩ := by
        simp [step?, hcolon, hc]
      rw [List.cons_append, run?_cons, hstep, Option.bind_some, ih _ hrest, List.append_assoc]
      rfl
  cases name with
  | nil => exact absurd rfl hname
  | cons c rest =>
    obtain ⟨hc, hrest⟩ := List.forall_mem_cons.mp h
    have hbrace : c ≠ '}' := by
      rintro rfl
      exact absurd hc (by decide)
    have hfirst : step? marks ⟨.between, members⟩ c = some ⟨.name [c], members⟩ := by
      simp [step?, not_isBlank_of_isAlphanum hc, hbrace, hc]
    rw [List.cons_append, run?_cons, hfirst]
    exact hmore [c] rest hrest

/-- A character of a value that does not end it. -/
private theorem step?_value {c : Char} (hc : r = ⟨.code, 0⟩ → c ≠ marks.comma)
    (h : r.step? c = some r') (name read : List Char) (members : List (String × String)) :
    step? marks ⟨.value name read r, members⟩ c =
      some ⟨.value name (read ++ [c]) r', members⟩ := by
  have hends : (r = ⟨.code, 0⟩ && c = marks.comma) = false := by
    simpa using hc
  simp [step?, hends, h]

/-- A piece of a value that does not hold the mark that ends values. -/
theorem run?_plain (hcomma : marks.comma ∉ text) (h : r.run? text = some r')
    (name read : List Char) (members : List (String × String)) :
    run? marks ⟨.value name read r, members⟩ text =
      some ⟨.value name (read ++ text) r', members⟩ := by
  induction text generalizing r read with
  | nil =>
    obtain rfl := Option.some.inj h
    rw [List.append_nil, run?_nil]
  | cons c rest ih =>
    obtain ⟨hc, hrest⟩ := not_or.mp (mt List.mem_cons.mpr hcomma)
    rw [Reading.run?_cons] at h
    obtain ⟨next, hnext, hrun⟩ := Option.bind_eq_some_iff.mp h
    rw [run?_cons, step?_value (fun _ => Ne.symm hc) hnext, Option.bind_some, ih hrest hrun,
      List.append_assoc, List.singleton_append]

/-- Between braces no mark ends the value. -/
private theorem run?_deepened (h : r.calmRun? text = some r') (name read : List Char)
    (members : List (String × String)) :
    run? marks ⟨.value name read (r.deepen 1), members⟩ text =
      some ⟨.value name (read ++ text) (r'.deepen 1), members⟩ := by
  induction text generalizing r read with
  | nil =>
    obtain rfl := Option.some.inj h
    rw [List.append_nil, run?_nil]
  | cons c rest ih =>
    rw [Reading.calmRun?_cons] at h
    obtain ⟨next, hnext, hrun⟩ := Option.bind_eq_some_iff.mp h
    have hdeep : r.deepen 1 ≠ ⟨.code, 0⟩ := fun heq =>
      Nat.succ_ne_zero r.depth (congrArg Reading.depth heq)
    have hstep := Reading.step?_of_calmStep? (Reading.calmStep?_deepen 1 hnext)
    rw [run?_cons, step?_value (fun heq => absurd heq hdeep) hstep, Option.bind_some, ih hrun,
      List.append_assoc, List.singleton_append]

/-- A value in braces is read as far as they go. -/
theorem run?_braces (h : Level text) (name read : List Char) (members : List (String × String)) :
    run? marks ⟨.value name read ⟨.code, 0⟩, members⟩ ('{' :: text ++ ['}']) =
      some ⟨.value name (read ++ ('{' :: text ++ ['}'])) ⟨.code, 0⟩, members⟩ := by
  have hopen : run? marks ⟨.value name read ⟨.code, 0⟩, members⟩ ['{'] =
      some ⟨.value name (read ++ ['{']) ⟨.code, 1⟩, members⟩ :=
    run?_plain (by simp [marks.comma_apart]) rfl ..
  have hinside : run? marks ⟨.value name (read ++ ['{']) ⟨.code, 1⟩, members⟩ text =
      some ⟨.value name (read ++ ['{'] ++ text) ⟨.code, 1⟩, members⟩ := run?_deepened h ..
  have hclose (read : List Char) : step? marks ⟨.value name read ⟨.code, 1⟩, members⟩ '}' =
      some ⟨.value name (read ++ ['}']) ⟨.code, 0⟩, members⟩ := by
    refine step?_value (fun heq => ?_) rfl name read members
    cases heq
  rw [← List.singleton_append, run?_append, run?_append, hopen, Option.bind_some, hinside,
    Option.bind_some, run?_cons, hclose]
  simp

end MemberScan

/-- Trimming takes the blanks around a text, up to its ends. -/
theorem trim_enclosed {before after inner : List Char} {first last : Char}
    (hfirst : isBlank first = false) (hlast : isBlank last = false)
    (hbefore : ∀ c ∈ before, isBlank c) (hafter : ∀ c ∈ after, isBlank c) :
    trim (before ++ (first :: inner ++ [last]) ++ after) = first :: inner ++ [last] := by
  have hstart : trimStart (before ++ (first :: inner ++ [last]) ++ after) =
      first :: inner ++ [last] ++ after := by
    rw [trimStart, List.append_assoc, List.dropWhile_append_of_pos hbefore]
    exact List.dropWhile_cons_of_neg (by simp [hfirst])
  have hend : trimEnd [last] = [last] := by
    simp [trimEnd, hlast]
  rw [trim, hstart, trimEnd_append, if_pos (trimEnd_eq_nil_iff.mpr hafter), trimEnd_append, hend]
  exact if_neg (List.cons_ne_nil last [])

/-- A text that is read as one value and has no blanks at its ends. -/
structure IsValue (marks : MemberMarks) (text : List Char) : Prop where
  reads (name read : List Char) (members : List (String × String)) :
    MemberScan.run? marks ⟨.value name read ⟨.code, 0⟩, members⟩ text =
      some ⟨.value name (read ++ text) ⟨.code, 0⟩, members⟩
  trimmed {before after : List Char} : (∀ c ∈ before, isBlank c) → (∀ c ∈ after, isBlank c) →
    trim (before ++ text ++ after) = text

namespace IsValue

variable {text : List Char}

theorem braces (h : Level text) : IsValue marks ('{' :: text ++ ['}']) :=
  ⟨MemberScan.run?_braces h, trim_enclosed rfl rfl⟩

theorem quoted (h : Level ('"' :: text ++ ['"'])) (hcomma : marks.comma ∉ '"' :: text ++ ['"']) :
    IsValue marks ('"' :: text ++ ['"']) :=
  ⟨MemberScan.run?_plain hcomma (Reading.run?_of_calmRun? h), trim_enclosed rfl rfl⟩

end IsValue

/-- A text that can be the name of a member. -/
def IsWord (name : String) : Prop := name ≠ "" ∧ ∀ c ∈ name.toList, c.isAlphanum

instance (name : String) : Decidable (IsWord name) :=
  decidable_of_iff (name ≠ "" ∧ name.toList.all Char.isAlphanum) (by rw [List.all_eq_true, IsWord])

/-- A name and a value that can be read as a member. -/
def IsMember (marks : MemberMarks) (member : String × String) : Prop :=
  IsWord member.1 ∧ IsValue marks member.2.toList

/-- A text of a member, up to the end of its value. -/
structure Writes (marks : MemberMarks) (text : List Char) (member : String × String) : Prop where
  reads (members : List (String × String)) : ∃ gap : List Char, (∀ c ∈ gap, isBlank c) ∧
    MemberScan.run? marks ⟨.between, members⟩ text =
      some ⟨.value member.1.toList (gap ++ member.2.toList) ⟨.code, 0⟩, members⟩
  isValue : IsValue marks member.2.toList

namespace Writes

variable {text : List Char} {member : String × String}

/-- Before a member and its value there may be blanks. -/
theorem of_isMember (h : IsMember marks member) {before gap : List Char}
    (hbefore : ∀ c ∈ before, isBlank c) (hgap : ∀ c ∈ gap, isBlank c)
    (hread : Reading.run? ⟨.code, 0⟩ gap = some ⟨.code, 0⟩) (hcomma : marks.comma ∉ gap) :
    Writes marks (before ++ ((member.1.toList ++ [marks.colon]) ++ (gap ++ member.2.toList)))
      member := by
  obtain ⟨⟨hfull, hchars⟩, hvalue⟩ := h
  refine ⟨fun members => ⟨gap, hgap, ?_⟩, hvalue⟩
  rw [MemberScan.run?_append, MemberScan.run?_blanks hbefore, Option.bind_some,
    MemberScan.run?_append, MemberScan.run?_name (mt String.toList_eq_nil_iff.mp hfull) hchars,
    Option.bind_some, MemberScan.run?_append, MemberScan.run?_plain hcomma hread,
    Option.bind_some, hvalue.reads]
  rfl

theorem writtenMember_eq (h : Writes marks text member) {before : List Char}
    (hbefore : ∀ c ∈ before, isBlank c) (after : List Char) (hafter : ∀ c ∈ after, isBlank c) :
    writtenMember member.1.toList (before ++ member.2.toList ++ after) = member := by
  rw [writtenMember, h.isValue.trimmed hbefore hafter, String.ofList_toList, String.ofList_toList]

/-- The last member of an object goes up to the brace that closes the object. -/
theorem run?_close (h : Writes .object text member) (members : List (String × String))
    (rest : List Char) :
    MemberScan.run? .object ⟨.between, members⟩ (text ++ '\n' :: '}' :: rest) =
      some ⟨.done, members ++ [member]⟩ := by
  obtain ⟨gap, hgap, hread⟩ := h.reads members
  have hwritten := h.writtenMember_eq hgap ['\n'] (List.forall_mem_singleton.mpr rfl)
  rw [MemberScan.run?_append, hread, Option.bind_some]
  refine (MemberScan.run?_done (members ++
    [writtenMember member.1.toList (gap ++ member.2.toList ++ ['\n'])]) rest).trans ?_
  rw [hwritten]

end Writes

/-- Between members the text adds these members. -/
def GivesMembers (marks : MemberMarks) (text : List Char) (entries : List (String × String)) :
    Prop :=
  ∀ members, MemberScan.run? marks ⟨.between, members⟩ text = some ⟨.between, members ++ entries⟩

namespace GivesMembers

variable {a b text : List Char} {x y entries : List (String × String)} {member : String × String}

theorem append (ha : GivesMembers marks a x) (hb : GivesMembers marks b y) :
    GivesMembers marks (a ++ b) (x ++ y) := by
  intro members
  rw [MemberScan.run?_append, ha, Option.bind_some, hb, List.append_assoc]

theorem blanks (h : ∀ c ∈ a, isBlank c) : GivesMembers marks a [] := fun members => by
  rw [MemberScan.run?_blanks h, List.append_nil]

/-- The mark behind a value ends a member, and others may follow. -/
theorem comma (h : Writes marks text member) :
    GivesMembers marks (text ++ [marks.comma]) [member] := by
  intro members
  obtain ⟨gap, hgap, hread⟩ := h.reads members
  have hwritten := h.writtenMember_eq hgap [] nofun
  rw [List.append_nil] at hwritten
  rw [MemberScan.run?_append, hread, Option.bind_some, MemberScan.run?_cons]
  simp [MemberScan.step?, hwritten]

theorem flatMap {f : String × String → List Char}
    (h : ∀ entry ∈ entries, GivesMembers marks (f entry) [entry]) :
    GivesMembers marks (entries.flatMap f) entries := by
  induction entries with
  | nil => exact blanks nofun
  | cons entry rest ih =>
    obtain ⟨hentry, hrest⟩ := List.forall_mem_cons.mp h
    rw [List.flatMap_cons]
    exact hentry.append (ih hrest)

end GivesMembers

section Object

/-- Members on lines of their own, with commas between them. -/
def memberLines (entries : List (String × String)) (last : String × String) : String :=
  joinLines (entries.map (fun (name, value) => "  " ++ name ++ ": " ++ value ++ ",") ++
    ["  " ++ last.1 ++ ": " ++ last.2])

private theorem writes_line {member : String × String} (h : IsMember .object member) :
    Writes .object ("  " ++ member.1 ++ ": " ++ member.2).toList member := by
  have hgap : ∀ c ∈ [' '], isBlank c := List.forall_mem_singleton.mpr rfl
  have hwrites : Writes .object
      ([' ', ' '] ++ ((member.1.toList ++ [':']) ++ ([' '] ++ member.2.toList))) member :=
    .of_isMember h (List.forall_mem_cons.mpr ⟨rfl, hgap⟩) hgap rfl (by decide)
  simpa using hwrites

/-- An object with its members on lines of their own is read as them. -/
theorem assignedMembers?_memberLines {code : String} {entries : List (String × String)}
    {last : String × String} {rest : List Char}
    (hcode : behindFirst? "= \x7b".toList code.toList =
      some ('\n' :: ((memberLines entries last).toList ++ '\n' :: '}' :: rest)))
    (hentries : ∀ entry ∈ entries, IsMember .object entry) (hlast : IsMember .object last) :
    assignedMembers? code = some (entries ++ [last]) := by
  have hbreak : GivesMembers .object ['\n'] [] := .blanks (List.forall_mem_singleton.mpr rfl)
  have hlines : GivesMembers .object (entries.flatMap fun entry =>
      (("  " ++ entry.1 ++ ": " ++ entry.2).toList ++ [',']) ++ ['\n']) entries :=
    .flatMap fun entry he => (GivesMembers.comma (writes_line (hentries entry he))).append hbreak
  have htext : (memberLines entries last).toList = entries.flatMap (fun entry =>
      (("  " ++ entry.1 ++ ": " ++ entry.2).toList ++ [',']) ++ ['\n']) ++
        ("  " ++ last.1 ++ ": " ++ last.2).toList := by
    rw [memberLines, joinLines, toList_joinWith_concat, List.flatMap_map]
    simp
  have hrun : MemberScan.start.run? .object
      ('\n' :: ((memberLines entries last).toList ++ '\n' :: '}' :: rest)) =
        some ⟨.done, entries ++ [last]⟩ := by
    rw [htext, List.append_assoc, ← List.singleton_append, ← List.append_assoc,
      MemberScan.run?_append, MemberScan.start, hbreak.append hlines]
    exact (writes_line hlast).run?_close ([] ++ ([] ++ entries)) rest
  rw [assignedMembers?, hcode, Option.bind_some, hrun]

end Object

section Tag

private theorem writes_attribute {member : String × String} (h : IsMember .tag member) :
    Writes .tag (member.1 ++ "=" ++ member.2).toList member := by
  have hwrites : Writes .tag
      ([] ++ ((member.1.toList ++ ['=']) ++ ([] ++ member.2.toList))) member :=
    .of_isMember h nofun nofun rfl List.not_mem_nil
  simpa using hwrites

/-- Attributes with spaces between them are read one after the other. -/
theorem tagMembers?_joinWith {entries : List (String × String)}
    (hentries : ∀ entry ∈ entries, IsMember .tag entry) :
    tagMembers? (joinWith " " (entries.map fun (name, value) => name ++ "=" ++ value)) =
      some entries := by
  cases entries using List.reverseRec with
  | nil => rfl
  | append_singleton entries last =>
    obtain ⟨hentries, hlast⟩ := List.forall_mem_append.mp hentries
    have hspaced : GivesMembers .tag (entries.flatMap fun entry =>
        (entry.1 ++ "=" ++ entry.2).toList ++ [' ']) entries :=
      .flatMap fun entry he => .comma (writes_attribute (hentries entry he))
    have htext : (joinWith " " ((entries ++ [last]).map fun (name, value) =>
        name ++ "=" ++ value)).toList = entries.flatMap (fun entry =>
          (entry.1 ++ "=" ++ entry.2).toList ++ [' ']) ++ (last.1 ++ "=" ++ last.2).toList := by
      rw [List.map_append, List.map_singleton, toList_joinWith_concat, List.flatMap_map]
      rfl
    have hwrites := writes_attribute (hlast last List.mem_cons_self)
    obtain ⟨gap, hgap, hread⟩ := hwrites.reads entries
    have hwritten := hwrites.writtenMember_eq hgap [] nofun
    rw [List.append_nil] at hwritten
    have hrun : MemberScan.start.run? .tag (joinWith " " ((entries ++ [last]).map
        fun (name, value) => name ++ "=" ++ value)).toList =
          some ⟨.value last.1.toList (gap ++ last.2.toList) ⟨.code, 0⟩, entries⟩ := by
      rw [htext, MemberScan.run?_append, MemberScan.start, hspaced]
      exact hread
    simp only [tagMembers?, hrun, hwritten]

end Tag

end Pagewright
