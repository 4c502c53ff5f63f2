import Pagewright.Proofs.Markup.Balance
import Pagewright.Proofs.Markup.Reader

/-! What a reader of markup finds in the start tag of an element: attributes one after the other,
whatever the values are, among them the id of the element once. -/

namespace Pagewright

/-- Inside a tag the text adds attributes that give these values to the attribute of the key. -/
structure GivesValues (key : String) (text : List Char) (values : List String) : Prop where
  oneLine : '\n' ∉ text
  entries : ∃ entries, Tag.valuesOf key entries = values ∧
    ∀ (tag : Tag) (siblings : List Outline) (opened : List (Tag × List Outline)),
      MarkupScan.calmRun? key ⟨.inside tag, siblings, opened⟩ text =
        some ⟨.inside (tag.addAll entries), siblings, opened⟩

/-- A text that can be the name of a tag or of an attribute. -/
def IsName (name : String) : Prop := name ≠ "" ∧ ∀ c ∈ name.toList, isNameChar c

instance (name : String) : Decidable (IsName name) :=
  decidable_of_iff (name ≠ "" ∧ name.toList.all isNameChar) (by rw [List.all_eq_true, IsName])

/-- The tags of elements are names. -/
theorem Element.isName_tag (e : Element) (binding : Option Binding) : IsName (e.tag binding) := by
  have htags : ∀ kind ∈ ElementKind.all,
      IsName kind.tag ∧ IsName ("motion." ++ kind.tag) := by decide
  have hall : e.kind ∈ ElementKind.all := by cases e.kind <;> decide
  unfold Element.tag
  split
  · exact (htags e.kind hall).2
  · exact (htags e.kind hall).1

variable {key name : String}

section Pieces

variable {siblings : List Outline} {opened : List (Tag × List Outline)}

/-- A mode that collects characters goes on while they are of its kind. -/
theorem MarkupScan.calmRun?_collect {mode : List Char → MarkupMode} {allowed : Char → Prop}
    (h : ∀ read c, allowed c → calmStep? key ⟨mode read, siblings, opened⟩ c =
      some ⟨mode (read ++ [c]), siblings, opened⟩) {text : List Char}
    (htext : ∀ c ∈ text, allowed c) (read : List Char) :
    calmRun? key ⟨mode read, siblings, opened⟩ text =
      some ⟨mode (read ++ text), siblings, opened⟩ := by
  induction text generalizing read with
  | nil => rw [List.append_nil, calmRun?_nil]
  | cons c rest ih =>
    obtain ⟨hc, hrest⟩ := List.forall_mem_cons.mp htext
    rw [calmRun?_cons, h read c hc, Option.bind_some, ih hrest, List.append_assoc,
      List.singleton_append]

theorem ne_of_isNameChar {c d : Char} (hc : isNameChar c) (hd : isNameChar d = false) :
    c ≠ d := by
  rintro rfl
  rw [hc] at hd
  cases hd

/-- The name of a tag, a closing tag or an attribute is read as far as it goes. -/
theorem MarkupScan.calmRun?_name {mode : List Char → MarkupMode}
    (hmode : mode = .name ∨ mode = .closing ∨ ∃ tag, mode = .attributeName tag) {text : List Char}
    (htext : ∀ c ∈ text, isNameChar c) (read : List Char) :
    calmRun? key ⟨mode read, siblings, opened⟩ text =
      some ⟨mode (read ++ text), siblings, opened⟩ := by
  refine calmRun?_collect (fun read c hc => ?_) htext read
  have hangle : c ≠ '>' := ne_of_isNameChar hc rfl
  have hequals : c ≠ '=' := ne_of_isNameChar hc rfl
  rw [calmStep?_eq (ne_of_isNameChar hc rfl)]
  rcases hmode with rfl | rfl | ⟨tag, rfl⟩ <;> simp [step?, toMode, hc, hangle, hequals]

private theorem calmRun?_attributeName (h : IsName name) (tag : Tag) :
    MarkupScan.calmRun? key ⟨.inside tag, siblings, opened⟩ name.toList =
      some ⟨.attributeName tag name.toList, siblings, opened⟩ := by
  obtain ⟨hfull, hchars⟩ := h
  cases htext : name.toList with
  | nil => exact absurd (String.toList_eq_nil_iff.mp htext) hfull
  | cons c rest =>
    rw [htext] at hchars
    obtain ⟨hc, hrest⟩ := List.forall_mem_cons.mp hchars
    have hblank : isBlank c = false := by
      by_contra h
      exact MarkupScan.not_isNameChar_of_isBlank (by simpa using h) hc
    have hangle : c ≠ '>' := ne_of_isNameChar hc rfl
    have hslash : c ≠ '/' := ne_of_isNameChar hc rfl
    have hfirst : MarkupScan.calmStep? key ⟨.inside tag, siblings, opened⟩ c =
        some ⟨.attributeName tag [c], siblings, opened⟩ := by
      rw [MarkupScan.calmStep?_eq (ne_of_isNameChar hc rfl)]
      simp [MarkupScan.step?, MarkupScan.readTag?, MarkupScan.toMode, hc, hblank, hangle, hslash]
    rw [MarkupScan.calmRun?_cons, hfirst, Option.bind_some]
    exact MarkupScan.calmRun?_name (.inr (.inr ⟨tag, rfl⟩)) hrest [c]

/-- In an expression without line breaks, reading goes on as in code. -/
private theorem calmRun?_braced {r r' : Reading} {text : List Char} (hbreak : '\n' ∉ text)
    (h : r.calmRun? text = some r') (tag : Tag) (name value : List Char) :
    MarkupScan.calmRun? key ⟨.braced tag name value r, siblings, opened⟩ text =
      some ⟨.braced tag name (value ++ text) r', siblings, opened⟩ := by
  induction text generalizing r value with
  | nil =>
    obtain rfl := Option.some.inj h
    rw [List.append_nil, MarkupScan.calmRun?_nil]
  | cons c rest ih =>
    obtain ⟨hc, hrest⟩ := not_or.mp (mt List.mem_cons.mpr hbreak)
    rw [Reading.calmRun?_cons] at h
    obtain ⟨next, hnext, hrun⟩ := Option.bind_eq_some_iff.mp h
    have hstep : MarkupScan.calmStep? key ⟨.braced tag name value r, siblings, opened⟩ c =
        some ⟨.braced tag name (value ++ [c]) next, siblings, opened⟩ := by
      rw [MarkupScan.calmStep?_eq fun e => hc e.symm]
      simp [MarkupScan.step?, MarkupScan.toMode, Reading.step?_of_calmStep? hnext]
    rw [MarkupScan.calmRun?_cons, hstep, Option.bind_some, ih hrest hrun, List.append_assoc,
      List.singleton_append]

end Pieces

namespace GivesValues

variable {a b : List Char} {x y : List String}

theorem nil : GivesValues key [] [] :=
  ⟨List.not_mem_nil, [], rfl, fun tag _ _ => by simp [Tag.addAll]⟩

theorem blank : GivesValues key [' '] [] :=
  ⟨by decide, [], rfl, fun tag _ _ => by simp [Tag.addAll, MarkupScan.calmStep?, MarkupScan.step?,
    MarkupScan.readTag?, MarkupScan.toMode, isBlank, blankRanges]⟩

theorem append (ha : GivesValues key a x) (hb : GivesValues key b y) :
    GivesValues key (a ++ b) (x ++ y) := by
  obtain ⟨hleft, first, rfl, hfirst⟩ := ha
  obtain ⟨hright, second, rfl, hsecond⟩ := hb
  refine ⟨fun h => (List.mem_append.mp h).elim hleft hright, first ++ second,
    by simp [Tag.valuesOf], fun tag siblings opened => ?_⟩
  rw [MarkupScan.calmRun?_append, hfirst, Option.bind_some, hsecond]
  simp [Tag.addAll]

private theorem valuesOf_single (value : List Char) : Tag.valuesOf key [(name.toList, value)] =
    if name = key then [String.ofList value] else [] := by
  have hiff : name.toList = key.toList ↔ name = key := String.toList_inj
  by_cases h : name = key <;> simp [Tag.valuesOf, hiff, h]

private theorem break_notMem_name (hname : IsName name) : '\n' ∉ name.toList :=
  fun h => absurd (hname.2 _ h) (by decide)

/-- What is read in a tag determines its values. -/
theorem unique (ha : GivesValues key a x) (hb : GivesValues key a y) : x = y := by
  obtain ⟨-, first, rfl, hfirst⟩ := ha
  obtain ⟨-, second, rfl, hsecond⟩ := hb
  have hsame := (hfirst ⟨[], []⟩ [] []).symm.trans (hsecond ⟨[], []⟩ [] [])
  simp only [Tag.addAll, List.nil_append, Option.some.injEq, MarkupScan.mk.injEq,
    MarkupMode.inside.injEq, Tag.mk.injEq, true_and, and_true] at hsame
  rw [hsame]

/-- An attribute with a value in quotation marks. -/
theorem quoted (hname : IsName name) {value : List Char} (hquote : '"' ∉ value)
    (hbreak : '\n' ∉ value) :
    GivesValues key (name.toList ++ '=' :: '"' :: (value ++ ['"']))
      (if name = key then [String.ofList value] else []) := by
  refine ⟨by simp [break_notMem_name hname, hbreak], [(name.toList, value)],
    valuesOf_single value, fun tag siblings opened => ?_⟩
  have hcollect (read : List Char) (c : Char) (hc : c ≠ '"' ∧ c ≠ '\n') :
      MarkupScan.calmStep? key ⟨.quoted tag name.toList read, siblings, opened⟩ c =
        some ⟨.quoted tag name.toList (read ++ [c]), siblings, opened⟩ := by
    rw [MarkupScan.calmStep?_eq hc.2]
    simp [MarkupScan.step?, MarkupScan.toMode, hc.1]
  have hvalue : MarkupScan.calmRun? key ⟨.quoted tag name.toList [], siblings, opened⟩ value =
      some ⟨.quoted tag name.toList value, siblings, opened⟩ :=
    MarkupScan.calmRun?_collect hcollect
      (fun c hc => ⟨fun e => hquote (e ▸ hc), fun e => hbreak (e ▸ hc)⟩) []
  rw [MarkupScan.calmRun?_append, calmRun?_attributeName hname, Option.bind_some]
  change MarkupScan.calmRun? key ⟨.quoted tag name.toList [], siblings, opened⟩ (value ++ ['"']) = _
  rw [MarkupScan.calmRun?_append, hvalue]
  rfl

/-- An attribute with an expression on one line as its value. -/
theorem braced (hname : IsName name) {value : List Char} (hlevel : Level value)
    (hbreak : '\n' ∉ value) :
    GivesValues key (name.toList ++ '=' :: '\x7b' :: (value ++ ['\x7d']))
      (if name = key then [String.ofList value] else []) := by
  refine ⟨by simp [break_notMem_name hname, hbreak], [(name.toList, value)],
    valuesOf_single value, fun tag siblings opened => ?_⟩
  have hvalue : MarkupScan.calmRun? key ⟨.braced tag name.toList [] ⟨.code, 0⟩, siblings, opened⟩
      value = some ⟨.braced tag name.toList value ⟨.code, 0⟩, siblings, opened⟩ :=
    calmRun?_braced hbreak hlevel tag name.toList []
  rw [MarkupScan.calmRun?_append, calmRun?_attributeName hname, Option.bind_some]
  change MarkupScan.calmRun? key ⟨.braced tag name.toList [] ⟨.code, 0⟩, siblings, opened⟩
    (value ++ ['\x7d']) = _
  rw [MarkupScan.calmRun?_append, hvalue]
  rfl

end GivesValues

/-- The pieces, each in a tag, give these values one after the other. -/
inductive GiveValues (key : String) : List String → List String → Prop where
  | nil : GiveValues key [] []
  | cons {piece : String} {pieces x y : List String} : GivesValues key piece.toList x →
      GiveValues key pieces y → GiveValues key (piece :: pieces) (x ++ y)

namespace GiveValues

variable {a b x y : List String}

theorem singleton {piece : String} (h : GivesValues key piece.toList x) :
    GiveValues key [piece] x := by
  have hcons := GiveValues.cons h .nil
  rwa [List.append_nil] at hcons

theorem append (ha : GiveValues key a x) (hb : GiveValues key b y) :
    GiveValues key (a ++ b) (x ++ y) := by
  induction ha with
  | nil => exact hb
  | cons hpiece _ ih =>
    rw [List.append_assoc]
    exact .cons hpiece ih

theorem silent (h : ∀ piece ∈ a, GivesValues key piece.toList []) : GiveValues key a [] := by
  induction a with
  | nil => exact .nil
  | cons piece rest ih =>
    obtain ⟨hpiece, hrest⟩ := List.forall_mem_cons.mp h
    exact .cons hpiece (ih hrest)

/-- Attributes have spaces between them. -/
theorem joinWith (h : GiveValues key a x) :
    GivesValues key (joinWith " " a).toList x := by
  induction h with
  | nil => exact .nil
  | cons hpiece hrest ih =>
    cases hrest with
    | nil =>
      rw [Pagewright.joinWith, List.append_nil]
      exact hpiece
    | cons hnext hmore =>
      rw [Pagewright.joinWith, String.toList_append, String.toList_append]
      · have hpair := (hpiece.append .blank).append ih
        rwa [List.append_nil] at hpair
      · exact List.cons_ne_nil _ _

end GiveValues

theorem attributeText_givesValues (key : String) (hname : IsName name) (value : String) :
    GivesValues key (attributeText name value).toList
      (if name = key then [escapeAttribute value] else []) := by
  have htext : (attributeText name value).toList =
      name.toList ++ '=' :: '"' :: ((escapeAttribute value).toList ++ ['"']) := by
    simp [attributeText]
  have hquoted : GivesValues key (name.toList ++ '=' :: '"' :: ((escapeAttribute value).toList ++
      ['"'])) (if name = key then [String.ofList (escapeAttribute value).toList] else []) :=
    .quoted hname (notMem_escapeAttribute (.inl rfl) value)
      (notMem_escapeAttribute (.inr rfl) value)
  rw [String.ofList_toList] at hquoted
  rw [htext]
  exact hquoted

theorem bracedText_givesValues (key : String) (hname : IsName name) {value : String}
    (hlevel : Level value.toList) (hbreak : '\n' ∉ value.toList) :
    GivesValues key (name ++ "=\x7b" ++ value ++ "\x7d").toList
      (if name = key then [value] else []) := by
  have htext : (name ++ "=\x7b" ++ value ++ "\x7d").toList =
      name.toList ++ '=' :: '\x7b' :: (value.toList ++ ['\x7d']) := by
    simp
  have hbraced : GivesValues key (name.toList ++ '=' :: '\x7b' :: (value.toList ++ ['\x7d']))
      (if name = key then [String.ofList value.toList] else []) :=
    .braced hname hlevel hbreak
  rw [String.ofList_toList] at hbraced
  rw [htext]
  exact hbraced

theorem attributeText_silent (hname : IsName name) (hne : name ≠ key) (value : String) :
    GivesValues key (attributeText name value).toList [] := by
  have h := attributeText_givesValues key hname value
  rwa [if_neg hne] at h

theorem bracedText_silent (hname : IsName name) (hne : name ≠ key) {value : String}
    (hlevel : Level value.toList) (hbreak : '\n' ∉ value.toList) :
    GivesValues key (name ++ "=\x7b" ++ value ++ "\x7d").toList [] := by
  have h := bracedText_givesValues key hname hlevel hbreak
  rwa [if_neg hne] at h

/-- The names of the attributes that belong to kinds of elements. -/
def kindKeys : List String := Element.kindNames ++ Element.fixedAttributes.map Prod.fst

/-- The names of the attributes that motion props give besides the states. -/
def stateKeys : List String := ["initial", "animate", "whileHover", "whileTap", "transition"]

/-- The names of the attributes that motion props give. -/
def motionKeys : List String := "variants" :: stateKeys

/-- The attributes whose values are the same for all ids and states of an element. -/
def plainNames : List String :=
  ["className", "src", "alt", "width", "height", "type", "placeholder", "onSubmit", "id",
    "initial", "animate", "whileHover", "whileTap", "transition"]

/-- The attributes of a kind give a value only under their own names, and only forms handle an
event. -/
theorem kindAttributes_silent {e : Element}
    (hkey : key ∈ kindKeys → key = "onSubmit" ∧ e.kind ≠ .form) :
    ∀ piece ∈ e.kindAttributes, GivesValues key piece.toList [] := by
  have hnames : ∀ name ∈ Element.kindNames,
      name ∈ kindKeys ∧ name ≠ "onSubmit" ∧ IsName name := by decide
  have hfixed : ∀ fixed ∈ Element.fixedAttributes, fixed.1 ∈ kindKeys ∧ IsName fixed.1 ∧
      Level fixed.2.toList ∧ '\n' ∉ fixed.2.toList := by decide
  intro piece hm
  obtain ⟨name, hname, value, -, rfl⟩ | ⟨fixed, hmem, hsubmit, rfl⟩ := Element.mem_kindAttributes hm
  · obtain ⟨hkind, hother, hname⟩ := hnames name hname
    refine attributeText_silent hname (fun heq => hother ?_) value
    exact heq.trans (hkey (heq ▸ hkind)).1
  · obtain ⟨hkind, hname, hlevel, hbreak⟩ := hfixed fixed hmem
    refine bracedText_silent hname (fun heq => ?_) hlevel hbreak
    obtain ⟨hevent, hform⟩ := hkey (heq ▸ hkind)
    exact hform (hsubmit (heq.trans hevent))

theorem classAttribute_silent (hkey : "className" ≠ key) (e : Element) (binding : Option Binding) :
    ∀ piece ∈ e.classAttribute binding, GivesValues key piece.toList [] := by
  intro piece hm
  obtain ⟨classes, -, rfl⟩ := Element.mem_classAttribute hm
  exact attributeText_silent (by decide) hkey _

private theorem states_plain (t : Trigger) : ∀ entry ∈ t.states,
    entry.1 ∈ stateKeys ∧ IsName entry.1 ∧ escapeAttribute entry.2 = entry.2 := by
  cases t <;> decide

/-- Motion props give the states of an animation once. -/
theorem motionAttributes_giveValues (hkey : key ∉ stateKeys) (a : Animation) :
    GivesValues key a.motionProps.attributes.toList
      (if "variants" = key then [a.motionProps.variants.toJson.compact] else []) := by
  have hvariants := bracedText_givesValues key (show IsName "variants" by decide)
    (Json.compact_level a.motionProps.variants.toJson)
    (Json.break_notMem_compact a.motionProps.variants.toJson)
  have hstates : ∀ piece ∈ a.motionProps.states.map
      (fun entry => entry.1 ++ "=\"" ++ entry.2 ++ "\""), GivesValues key piece.toList [] := by
    intro piece hm
    obtain ⟨entry, hentry, rfl⟩ := List.mem_map.mp hm
    rw [Animation.states_motionProps] at hentry
    obtain ⟨hstate, hname, hvalue⟩ := states_plain a.trigger entry hentry
    have h := attributeText_silent hname (ne_of_mem_of_not_mem hstate hkey) entry.2
    rwa [attributeText, hvalue] at h
  have htransition : GivesValues key
      ("transition" ++ "=\x7b" ++ a.motionProps.transitionJson.compact ++ "\x7d").toList [] :=
    bracedText_silent (by decide) (ne_of_mem_of_not_mem (by decide) hkey) (Json.compact_level _)
      (Json.break_notMem_compact _)
  have h := ((GiveValues.singleton hvariants).append (.silent hstates)).append
    (.singleton htransition)
  rw [List.append_nil, List.append_nil] at h
  exact h.joinWith

theorem motionAttributes_silent (hkey : key ∉ motionKeys) (a : Animation) :
    GivesValues key a.motionProps.attributes.toList [] := by
  obtain ⟨hvariants, hstates⟩ := not_or.mp (mt List.mem_cons.mpr hkey)
  have h := motionAttributes_giveValues hstates a
  rwa [if_neg (Ne.symm hvariants)] at h

/-- The start tag of an element gives its classes and its id, and next to these what its kind and
what is bound to it give. -/
theorem attributes_give {e : Element} {binding : Option Binding} {classes kind bound : List String}
    (hclass : GiveValues key (e.classAttribute binding) classes)
    (hkind : GiveValues key e.kindAttributes kind)
    (hbound : GiveValues key (e.bindingAttributes binding) bound) :
    GivesValues key (joinWith " " (e.attributes binding)).toList
      (classes ++ (if "data-element-id" = key then [escapeAttribute e.id] else []) ++ kind ++
        bound) := by
  have hid := attributeText_givesValues key (show IsName "data-element-id" by decide) e.id
  exact (((hclass.append (.singleton hid)).append hkind).append hbound).joinWith

section Element

variable (hkey : key ∉ plainNames) (e : Element) (binding : Option Binding)
include hkey

theorem attributes_giveValues {bound : List String}
    (hbound : GiveValues key (e.bindingAttributes binding) bound) :
    GivesValues key (joinWith " " (e.attributes binding)).toList
      ((if "data-element-id" = key then [escapeAttribute e.id] else []) ++ bound) := by
  have hplain : kindKeys ⊆ plainNames := by decide
  have hclass : "className" ≠ key := ne_of_mem_of_not_mem (by decide) hkey
  have hkind : GiveValues key e.kindAttributes [] :=
    .silent (kindAttributes_silent fun h => absurd (hplain h) hkey)
  have h := attributes_give (.silent (classAttribute_silent hclass e binding)) hkind hbound
  rwa [List.nil_append, List.append_nil] at h

end Element

/-- What is bound to an element gives no value to an attribute that is neither an id nor one of
motion props. -/
theorem bindingAttributes_silent (hkey : key ∉ "id" :: motionKeys) {e : Element}
    {binding : Option Binding} (bound : e.IsBoundBy binding) :
    ∀ piece ∈ e.bindingAttributes binding, GivesValues key piece.toList [] := by
  obtain ⟨hid, hmotion⟩ := not_or.mp (mt List.mem_cons.mpr hkey)
  intro piece hm
  obtain ⟨id, -, rfl⟩ | ⟨a, rfl⟩ := bound.mem_bindingAttributes hm
  · exact attributeText_silent (by decide) (Ne.symm hid) id
  · exact motionAttributes_silent hmotion a

/-- The start tag of an element gives its id once, escaped, whatever is bound to the element. -/
theorem attributes_giveId (e : Element) (binding : Option Binding) (bound : e.IsBoundBy binding) :
    GivesValues "data-element-id" (joinWith " " (e.attributes binding)).toList
      [escapeAttribute e.id] := by
  have hplain : "data-element-id" ∉ plainNames := by decide
  exact attributes_giveValues hplain e binding
    (.silent (bindingAttributes_silent (by decide) bound))

end Pagewright
