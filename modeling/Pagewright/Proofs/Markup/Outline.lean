import Pagewright.Proofs.Markup.Attributes

/-!
Markup and the element tree. Read as markup, the rendering of an element is one element, and its
tags nest as the rendered elements do, whatever texts the elements and their animations hold.
-/

namespace Pagewright

/-- In running text the piece adds these elements. -/
def GivesElements (key : String) (text : List Char) (elements : List Outline) : Prop :=
  ∀ (siblings : List Outline) (opened : List (Tag × List Outline)),
    MarkupScan.calmRun? key ⟨.text, siblings, opened⟩ text =
      some ⟨.text, siblings ++ elements, opened⟩

variable {key : String}

namespace GivesElements

variable {a b : List Char} {x y : List Outline}

theorem nil : GivesElements key [] [] := fun siblings _ => by simp

theorem append (ha : GivesElements key a x) (hb : GivesElements key b y) :
    GivesElements key (a ++ b) (x ++ y) := by
  intro siblings opened
  rw [MarkupScan.calmRun?_append, ha, Option.bind_some, hb, List.append_assoc]

theorem eq_nil (h : GivesElements key [] x) : x = [] := by
  have hstart : some (⟨.text, [], []⟩ : MarkupScan) = some ⟨.text, [] ++ x, []⟩ := h [] []
  simpa using hstart.symm

theorem outlines?_eq {text : String} (h : GivesElements key text.toList x) :
    outlines? key text = some x := by
  have hrun : MarkupScan.start.run? key text.toList = some ⟨.text, x, []⟩ :=
    MarkupScan.run?_of_calmRun? (h [] [])
  rw [outlines?, hrun]
  rfl

theorem lineBreak : GivesElements key ['\n'] [] := fun siblings opened => by
  rw [MarkupScan.calmRun?_cons, MarkupScan.calmStep?_blank (by decide), List.append_nil]
  rfl

theorem joinLines_cons {piece : String} {pieces : List String}
    (hpiece : GivesElements key piece.toList x)
    (hpieces : GivesElements key (joinLines pieces).toList y) :
    GivesElements key (joinLines (piece :: pieces)).toList (x ++ y) := by
  cases pieces with
  | nil =>
    rw [hpieces.eq_nil, List.append_nil]
    exact hpiece
  | cons next rest =>
    rw [joinLines, joinWith, String.toList_append, String.toList_append]
    · have hbreak := hpiece.append lineBreak
      rw [List.append_nil] at hbreak
      exact hbreak.append hpieces
    · exact List.cons_ne_nil next rest

/-- Indenting elements does not change them. -/
theorem indentBlock {block : String} (h : GivesElements key block.toList x) :
    GivesElements key ((indentBlock block).toList ++ ['\n']) x := by
  intro siblings opened
  rw [Pagewright.indentBlock, linesOf, List.map_map]
  have hend := h.append lineBreak
  rw [List.append_nil] at hend
  exact (MarkupScan.skipsMargins key).foldlM_joinLines indentLine_indents
    (MarkupScan.isSettled_text key siblings opened) trivial (hend siblings opened)

end GivesElements

section RunningText

variable {siblings : List Outline} {outer : Tag × List Outline} {opened : List (Tag × List Outline)}

private theorem calmRun?_textChar (c : Char) (next : Option Char) :
    MarkupScan.calmRun? key ⟨.text, siblings, outer :: opened⟩ (textChar c next).toList =
      some ⟨.text, siblings, outer :: opened⟩ := by
  unfold textChar
  split
  · rfl
  split
  · rfl
  split
  · rfl
  split
  · rfl
  split
  · rfl
  split
  · rfl
  split
  · rfl
  split
  · rfl
  · next hopen hclose hless hgreater _ _ _ _ =>
    rw [Char.toString, String.toList_singleton, MarkupScan.calmRun?_cons]
    by_cases hblank : isBlank c
    · rw [MarkupScan.calmStep?_blank hblank]
      rfl
    · have hbreak : c ≠ '\n' := by
        rintro rfl
        exact hblank (by decide)
      rw [MarkupScan.calmStep?_eq hbreak]
      simp [MarkupScan.step?, MarkupScan.readText?, *]

/-- Running text in an element adds no elements, whatever characters it holds. -/
theorem calmRun?_escapeTextChars (text : List Char) :
    MarkupScan.calmRun? key ⟨.text, siblings, outer :: opened⟩ (escapeTextChars text) =
      some ⟨.text, siblings, outer :: opened⟩ := by
  induction text with
  | nil => rfl
  | cons c rest ih =>
    rw [escapeTextChars, MarkupScan.calmRun?_append, calmRun?_textChar, Option.bind_some, ih]

end RunningText

section Tags

variable {siblings : List Outline} {opened : List (Tag × List Outline)} {name : String}

private theorem calmRun?_opening (h : IsName name) :
    MarkupScan.calmRun? key ⟨.text, siblings, opened⟩ ("<" ++ name ++ " ").toList =
      some ⟨.inside ⟨name.toList, []⟩, siblings, opened⟩ := by
  obtain ⟨hfull, hchars⟩ := h
  have htext : ("<" ++ name ++ " ").toList = '<' :: (name.toList ++ [' ']) := by simp
  rw [htext]
  change MarkupScan.calmRun? key ⟨.angle, siblings, opened⟩ (name.toList ++ [' ']) = _
  cases hname : name.toList with
  | nil => exact absurd (String.toList_eq_nil_iff.mp hname) hfull
  | cons c rest =>
    rw [hname] at hchars
    obtain ⟨hc, hrest⟩ := List.forall_mem_cons.mp hchars
    have hslash : c ≠ '/' := ne_of_isNameChar hc rfl
    have hfirst : MarkupScan.calmStep? key ⟨.angle, siblings, opened⟩ c =
        some ⟨.name [c], siblings, opened⟩ := by
      rw [MarkupScan.calmStep?_eq (ne_of_isNameChar hc rfl)]
      simp [MarkupScan.step?, MarkupScan.toMode, hc, hslash]
    rw [List.cons_append, MarkupScan.calmRun?_cons, hfirst, Option.bind_some,
      MarkupScan.calmRun?_append, MarkupScan.calmRun?_name (.inl rfl) hrest [c]]
    rfl

private theorem calmRun?_closing (h : ∀ c ∈ name.toList, isNameChar c)
    (attributes : List (List Char × List Char)) (before : List Outline) :
    MarkupScan.calmRun? key ⟨.text, siblings, (⟨name.toList, attributes⟩, before) :: opened⟩
        ("</" ++ name ++ ">").toList =
      some ⟨.text, before ++ [Tag.outline key ⟨name.toList, attributes⟩ siblings], opened⟩ := by
  have htext : ("</" ++ name ++ ">").toList = '<' :: '/' :: (name.toList ++ ['>']) := by simp
  have hname : MarkupScan.calmRun? key ⟨.closing [], siblings,
      (⟨name.toList, attributes⟩, before) :: opened⟩ name.toList = some ⟨.closing name.toList,
        siblings, (⟨name.toList, attributes⟩, before) :: opened⟩ :=
    MarkupScan.calmRun?_name (.inr (.inl rfl)) h []
  rw [htext]
  change MarkupScan.calmRun? key ⟨.closing [], siblings,
    (⟨name.toList, attributes⟩, before) :: opened⟩ (name.toList ++ ['>']) = _
  rw [MarkupScan.calmRun?_append, hname, Option.bind_some, MarkupScan.calmRun?_cons,
    MarkupScan.calmStep?_eq (by decide)]
  simp [MarkupScan.step?, MarkupScan.closeTag?]

end Tags

namespace Element

variable {e : Element} {binding : Option Binding} {children : List String} {below : List Outline}

private theorem block_givesElements (h : GivesElements key (joinLines children).toList below) :
    GivesElements key (if children = [] then ""
      else "\n" ++ indentBlock (joinLines children) ++ "\n").toList below := by
  split
  · next hempty =>
    rw [hempty] at h
    exact h
  · rw [String.toList_append, String.toList_append, List.append_assoc]
    exact GivesElements.lineBreak.append h.indentBlock

/-- What stands between the tags of an element adds the elements of its children, if they show. -/
theorem body_givesElements (full : ¬ e.kind.isVoid) (plain : ¬ e.bringsComponent)
    (h : e.kind.showsChildren → GivesElements key (joinLines children).toList below)
    (siblings : List Outline) (outer : Tag × List Outline) (opened : List (Tag × List Outline)) :
    MarkupScan.calmRun? key ⟨.text, siblings, outer :: opened⟩ (e.body children).toList =
      some ⟨.text, siblings ++ (if e.kind.showsChildren then below else []), outer :: opened⟩ := by
  have hescaped (content : String) : MarkupScan.calmRun? key ⟨.text, siblings, outer :: opened⟩
      (escapeText content).toList = some ⟨.text, siblings ++ [], outer :: opened⟩ := by
    rw [escapeText, String.toList_ofList, List.append_nil, calmRun?_escapeTextChars]
  unfold body
  cases hkind : e.kind with
  | text => exact hescaped _
  | button => exact hescaped _
  | custom =>
    have hnone : e.setProp? "component" = none := by simpa [bringsComponent, hkind] using plain
    rw [hkind] at h
    rw [hnone]
    exact block_givesElements (h rfl) siblings (outer :: opened)
  | container | form =>
    rw [hkind] at h
    exact block_givesElements (h rfl) siblings (outer :: opened)
  | image | input =>
    rw [hkind] at full
    exact absurd rfl full

theorem wrap_givesElements (plain : ¬ e.bringsComponent) {values : List String}
    (hvalues : GivesValues key (joinWith " " (e.attributes binding)).toList values)
    (h : e.kind.showsChildren → GivesElements key (joinLines children).toList below) :
    GivesElements key (e.wrap binding children).toList
      [.node (e.tag binding) values (if e.kind.showsChildren then below else [])] := by
  have hname := isName_tag e binding
  obtain ⟨-, entries, rfl, hentries⟩ := hvalues
  intro siblings opened
  have hstart : MarkupScan.calmRun? key ⟨.text, siblings, opened⟩
      ("<" ++ e.tag binding ++ " " ++ joinWith " " (e.attributes binding)).toList =
        some ⟨.inside ⟨(e.tag binding).toList, entries⟩, siblings, opened⟩ := by
    rw [String.toList_append, MarkupScan.calmRun?_append, calmRun?_opening hname, Option.bind_some,
      hentries]
    rfl
  have houtline (below : List Outline) : Tag.outline key ⟨(e.tag binding).toList, entries⟩ below =
      .node (e.tag binding) (Tag.valuesOf key entries) below := by
    rw [Tag.outline, String.ofList_toList]
  unfold wrap
  extract_lets start
  split
  · next void =>
    have hnone : e.kind.showsChildren = false := by
      revert void
      cases e.kind <;> decide
    rw [String.toList_append, MarkupScan.calmRun?_append, hstart, Option.bind_some, hnone,
      ← houtline]
    rfl
  · next full =>
    have htext : (start ++ ">" ++ e.body children ++ "</" ++ e.tag binding ++ ">").toList =
        start.toList ++ ('>' :: ((e.body children).toList ++
          ("</" ++ e.tag binding ++ ">").toList)) := by simp
    rw [htext, MarkupScan.calmRun?_append, hstart, Option.bind_some]
    change MarkupScan.calmRun? key
      ⟨.text, [], (⟨(e.tag binding).toList, entries⟩, siblings) :: opened⟩ _ = _
    rw [MarkupScan.calmRun?_append, body_givesElements full plain h, Option.bind_some,
      calmRun?_closing hname.2, houtline, List.nil_append]

end Element

mutual

/-- The elements of a subtree that appear in its markup, as they are nested, with their labels. -/
def Element.outline (label : Element → String × List String) : Element → Outline
  | e@⟨_, _, _, _, _, _, _, children, _⟩ =>
    .node (label e).1 (label e).2
      (if e.kind.showsChildren then Forest.outlines label children else [])

/-- The elements of a forest that appear in its markup, as they are nested, with their labels. -/
def Forest.outlines (label : Element → String × List String) : List Element → List Outline
  | [] => []
  | e :: rest => e.outline label :: Forest.outlines label rest

end

theorem Element.outline_eq (label : Element → String × List String) (e : Element) :
    e.outline label = .node (label e).1 (label e).2
      (if e.kind.showsChildren then Forest.outlines label e.children else []) := by
  cases e
  rw [outline]

theorem Forest.markup_givesElements {bindings : Bindings} {values : Element → List String}
    (forest : Forest) (plain : ∀ e ∈ Forest.rendered forest, ¬ e.bringsComponent)
    (hvalues : ∀ e ∈ Forest.rendered forest,
      GivesValues key (joinWith " " (e.attributes (bindings.get? e.id))).toList (values e)) :
    GivesElements key (joinLines (Forest.markup bindings forest)).toList
      (Forest.outlines (fun e => (e.tag (bindings.get? e.id), values e)) forest) := by
  induction forest using Forest.induction with
  | nil => exact .nil
  | cons e rest below beside =>
    rw [rendered, Element.rendered_eq] at plain hvalues
    obtain ⟨plainRoot, plainRest⟩ := List.forall_mem_append.mp plain
    obtain ⟨valuesRoot, valuesRest⟩ := List.forall_mem_append.mp hvalues
    obtain ⟨plainHere, plainBelow⟩ := List.forall_mem_cons.mp plainRoot
    obtain ⟨valuesHere, valuesBelow⟩ := List.forall_mem_cons.mp valuesRoot
    have here := Element.wrap_givesElements plainHere valuesHere fun shows => by
      rw [if_pos shows] at plainBelow valuesBelow
      exact below plainBelow valuesBelow
    rw [markup, Element.markup_eq, outlines, Element.outline_eq]
    exact here.joinLines_cons (beside plainRest valuesRest)

namespace Element

/-- The tag that an element has in markup: a motion tag if motion props animate it. -/
def shownTag (animations : List Animation) (backend : Backend) (e : Element) : String :=
  if backend = .motion ∧ e.kind ≠ .image ∧ ∃ a ∈ animations, a.elementId = e.id then
    "motion." ++ e.kind.tag
  else e.kind.tag

theorem tag_ofAnimations (animations : List Animation) (backend : Backend) (e : Element) :
    e.tag ((Bindings.ofAnimations animations backend).get? e.id) =
      e.shownTag animations backend := by
  have hmotion :
      (e.motionAttributes? ((Bindings.ofAnimations animations backend).get? e.id)).isSome ↔
        backend = .motion ∧ e.kind ≠ .image ∧ ∃ a ∈ animations, a.elementId = e.id := by
    rw [Bindings.get?_ofAnimations, ← shownAnimation?_isSome_iff]
    cases shownAnimation? animations e.id with
    | none => simp [motionAttributes?]
    | some a =>
      by_cases himage : e.kind = .image <;> cases backend <;>
        simp [motionAttributes?, Animation.binding, himage]
  simp only [tag, shownTag, hmotion]

/-- The reading of a whole markup finds what is read in the start tag of each element. -/
theorem outlines?_markup {animations : List Animation} {backend : Backend} {e : Element}
    {values : Element → List String} (plain : ∀ d ∈ e.rendered, ¬ d.bringsComponent)
    (hvalues : ∀ d : Element, GivesValues key (joinWith " "
      (d.attributes ((Bindings.ofAnimations animations backend).get? d.id))).toList (values d)) :
    outlines? key (e.markup (.ofAnimations animations backend)) =
      some [e.outline fun d => (d.shownTag animations backend, values d)] := by
  have hforest := Forest.markup_givesElements [e] (by simpa [Forest.rendered] using plain)
    fun d _ => hvalues d
  simp only [tag_ofAnimations, Forest.outlines] at hforest
  exact hforest.outlines?_eq

/-- Read as markup, the rendering of an element is one element, and in it tags and element ids
nest as the rendered elements do: none is lost, repeated or moved, whatever texts the elements
and their animations hold. -/
theorem markup_nests (animations : List Animation) (backend : Backend) (e : Element)
    (plain : ∀ d ∈ e.rendered, ¬ d.bringsComponent) :
    outlines? "data-element-id" (e.markup (.ofAnimations animations backend)) =
      some [e.outline fun d => (d.shownTag animations backend, [escapeAttribute d.id])] :=
  outlines?_markup plain fun d =>
    attributes_giveId d _ (isBoundBy_ofAnimations animations backend d)

/-- A container with marks of markup in its id and in the text inside it. -/
def thicket : Element :=
  ((bare "a\"><b" .container).withChild { bare "t" .text with content := some "</p>\x7b\"\n//" })
    |>.withChild ((bare "f" .form).withChild (bare "in" .input))

theorem thicket_nests :
    (∀ d ∈ thicket.rendered, ¬ d.bringsComponent) ∧
    outlines? "data-element-id" (thicket.markup (.ofAnimations
      [(Animation.bare "fade" "a\"><b" .hover).withTrack "\x7d/>" "'" [(0, .text "</div>\"")]]
      .motion)) =
      some [.node "motion.div" ["a&quot;><b"]
        [.node "p" ["t"] [], .node "form" ["f"] [.node "input" ["in"] []]]] := by
  have plain : ∀ d ∈ thicket.rendered, ¬ d.bringsComponent := by decide
  exact ⟨plain, markup_nests _ .motion thicket plain⟩

end Element

end Pagewright
