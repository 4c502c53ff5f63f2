import Pagewright.Proofs.Markup.Attributes
import Pagewright.Proofs.Source.CodeLines

/-!
Markup line by line. The start tag of an element stands on one line, and so the lines of a markup
tell the attributes of all elements that are visible in it.
-/

namespace Pagewright

/-- Whether the children of an element appear in its markup, with no component in their place. -/
def Element.opens (e : Element) : Bool := e.kind.showsChildren && !e.bringsComponent

mutual

/-- The elements of a subtree that are visible in its markup. -/
def Element.visible : Element → List Element
  | e@⟨_, _, _, _, _, _, _, children, _⟩ => e :: if e.opens then Forest.visible children else []

/-- The elements of a forest that are visible in its markup. -/
def Forest.visible : List Element → List Element
  | [] => []
  | e :: rest => e.visible ++ Forest.visible rest

end

/-- There are as many lines of the one kind as of the other, and they are the same only if the
statement holds. -/
structure LinesTell (statement : Prop) (x y : List (List Char)) : Prop where
  length : x.length = y.length
  holds : x = y → statement

namespace LinesTell

variable {p q : Prop} {a b : List Char} {x y x' y' : List (List Char)}

theorem imp (h : LinesTell p x y) (hpq : p → q) : LinesTell q x y :=
  ⟨h.length, fun hsame => hpq (h.holds hsame)⟩

theorem append (h : LinesTell p x y) (h' : LinesTell q x' y') :
    LinesTell (p ∧ q) (x ++ x') (y ++ y') := by
  refine ⟨by rw [List.length_append, List.length_append, h.length, h'.length], fun hsame => ?_⟩
  obtain ⟨hfirst, hsecond⟩ := List.append_inj hsame h.length
  exact ⟨h.holds hfirst, h'.holds hsecond⟩

theorem cons (hab : a = b → p) (h : LinesTell q x y) : LinesTell (p ∧ q) (a :: x) (b :: y) := by
  refine ⟨congrArg (· + 1) h.length, fun hsame => ?_⟩
  obtain ⟨hfirst, hrest⟩ := List.cons.inj hsame
  exact ⟨hab hfirst, h.holds hrest⟩

theorem indent (h : LinesTell p x y) (spaces : Nat) :
    LinesTell p (x.map (List.replicate spaces ' ' ++ ·)) (y.map (List.replicate spaces ' ' ++ ·)) :=
  ⟨by rw [List.length_map, List.length_map, h.length],
    fun hsame => h.holds (List.map_injective_iff.mpr (List.append_right_injective _) hsame)⟩

theorem refl (x : List (List Char)) : LinesTell True x x := ⟨rfl, fun _ => trivial⟩

end LinesTell

namespace Element

theorem visible_eq (e : Element) :
    e.visible = e :: if e.opens then Forest.visible e.children else [] := by
  cases e
  rw [visible]

/-- The start tag of an element, without its end. -/
def startText (e : Element) (binding : Option Binding) : String :=
  "<" ++ e.tag binding ++ " " ++ joinWith " " (e.attributes binding)

variable {e : Element} {binding binding' : Option Binding} {children children' : List String}

private theorem break_notMem_tag (e : Element) (binding : Option Binding) :
    '\n' ∉ (e.tag binding).toList :=
  fun h => absurd ((isName_tag e binding).2 _ h) (by decide)

theorem break_notMem_startText (bound : e.IsBoundBy binding) :
    '\n' ∉ (e.startText binding).toList := by
  simp [startText, break_notMem_tag e binding, (attributes_giveId e binding bound).oneLine]

private theorem body_of_opens (hopen : e.opens) (hchildren : children ≠ []) :
    ¬ e.kind.isVoid ∧ e.body children = "\n" ++ indentBlock (joinLines children) ++ "\n" := by
  simp only [opens, Bool.and_eq_true, Bool.not_eq_true'] at hopen
  unfold body
  cases hkind : e.kind with
  | custom =>
    have hnone : e.setProp? "component" = none := by
      simpa [bringsComponent, hkind] using hopen.2
    simp [hnone, hchildren, ElementKind.isVoid]
  | container | form => simp [hchildren, ElementKind.isVoid]
  | text | button | image | input =>
    rw [hkind] at hopen
    exact absurd hopen.1 (by decide)

private theorem body_congr (full : ¬ e.kind.isVoid) (h : e.opens → children = children') :
    e.body children = e.body children' := by
  by_cases hopen : e.opens
  · rw [h hopen]
  · unfold body
    cases hkind : e.kind with
    | text | button => rfl
    | custom =>
      have hsome : e.setProp? "component" ≠ none := by
        simpa [opens, ElementKind.showsChildren, bringsComponent, hkind] using hopen
      obtain ⟨value, hvalue⟩ := Option.ne_none_iff_exists'.mp hsome
      simp only [hvalue]
      rfl
    | container | form => simp [opens, ElementKind.showsChildren, bringsComponent, hkind] at hopen
    | image | input =>
      rw [hkind] at full
      exact absurd rfl full

theorem wrap_congr (h : e.startText binding = e.startText binding')
    (htag : e.tag binding = e.tag binding') (hchildren : e.opens → children = children') :
    e.wrap binding children = e.wrap binding' children' := by
  unfold wrap
  extract_lets start start'
  have hstart : start = start' := h
  rw [hstart, htag]
  split
  · rfl
  · next full => rw [body_congr full hchildren]

/-- Behind the start tag of an element something visible follows on its line, which depends on the
tag and the children alone. -/
theorem exists_wrap (e : Element) (children : List String) (tag : String) : ∃ gap c rest,
    '\n' ∉ gap ∧ ¬ isBlank c ∧ ∀ binding, e.tag binding = tag →
      (e.wrap binding children).toList = (e.startText binding).toList ++ gap ++ c :: rest := by
  unfold wrap
  cases e.kind.isVoid with
  | true =>
    refine ⟨[' '], '/', ['>'], by decide, by decide, fun binding htag => ?_⟩
    simp [startText]
  | false =>
    refine ⟨[], '>', (e.body children).toList ++ ("</" ++ tag ++ ">").toList, List.not_mem_nil,
      by decide, fun binding htag => ?_⟩
    simp [startText, htag]

/-- An element with children is set in lines: its start tag, the lines of the children further in,
and its end tag. -/
theorem codeLines_wrap_opens (hopen : e.opens) (hchildren : children ≠ [])
    (hstart : '\n' ∉ (e.startText binding).toList) : codeLines (e.wrap binding children).toList =
      ((e.startText binding).toList ++ ['>']) ::
        (codeLines (joinLines children).toList).map (List.replicate 2 ' ' ++ ·) ++
          [("</" ++ e.tag binding ++ ">").toList] := by
  have hend (line : List Char) (h : '\n' ∉ line) : codeLines (line ++ ['>']) = [line ++ ['>']] := by
    have htrim : trimEnd ['>'] = ['>'] := by decide
    rw [codeLines_of_break_notMem (by simp [h]), trimEnd_append, htrim]
    simp
  have hclose : codeLines ("</" ++ e.tag binding ++ ">").toList =
      [("</" ++ e.tag binding ++ ">").toList] := by
    rw [String.toList_append]
    exact hend _ (by simp [break_notMem_tag e binding])
  obtain ⟨hfull, hbody⟩ := body_of_opens hopen hchildren
  have htext : (e.wrap binding children).toList = (e.startText binding).toList ++ ['>'] ++
      '\n' :: ((indentBlock (joinLines children)).toList ++
        '\n' :: ("</" ++ e.tag binding ++ ">").toList) := by
    simp [wrap, hfull, hbody, startText]
  rw [htext, codeLines_append_break, codeLines_append_break, codeLines_indentBlock, hend _ hstart,
    hclose]
  rfl

/-- The lines of an element tell its start tag, and with it what the lines of its children tell. -/
theorem wrap_linesTell {statement : Prop} (htag : e.tag binding = e.tag binding')
    (hstart : '\n' ∉ (e.startText binding).toList) (hstart' : '\n' ∉ (e.startText binding').toList)
    (hempty : children = [] ↔ children' = [])
    (h : e.opens → LinesTell statement (codeLines (joinLines children).toList)
      (codeLines (joinLines children').toList)) :
    LinesTell (e.startText binding = e.startText binding' ∧ (e.opens → statement))
      (codeLines (e.wrap binding children).toList)
      (codeLines (e.wrap binding' children').toList) := by
  have hsame {tail : List Char} (h : (e.startText binding).toList ++ tail =
      (e.startText binding').toList ++ tail) : e.startText binding = e.startText binding' :=
    String.toList_injective (List.append_cancel_right h)
  by_cases hset : e.opens ∧ children ≠ []
  · obtain ⟨hopen, hchildren⟩ := hset
    rw [codeLines_wrap_opens hopen hchildren hstart,
      codeLines_wrap_opens hopen (mt hempty.mpr hchildren) hstart', htag]
    refine ((LinesTell.cons hsame ((h hopen).indent 2)).append (.refl _)).imp ?_
    rintro ⟨⟨hroot, hbelow⟩, -⟩
    exact ⟨hroot, fun _ => hbelow⟩
  · have hnone : e.opens → children = [] := fun hopen => by
      by_contra hchildren
      exact hset ⟨hopen, hchildren⟩
    have hnone' : e.opens → children' = [] := fun hopen => hempty.mp (hnone hopen)
    obtain ⟨gap, c, rest, hgap, hc, htext⟩ := e.exists_wrap [] (e.tag binding)
    obtain ⟨first, more, hlines⟩ := exists_codeLines_append hc rest
    have hbefore {start : List Char} (h : '\n' ∉ start) : '\n' ∉ start ++ gap :=
      fun hm => (List.mem_append.mp hm).elim h hgap
    rw [wrap_congr rfl rfl hnone, wrap_congr rfl rfl hnone', htext binding rfl,
      htext binding' htag.symm, hlines _ (hbefore hstart), hlines _ (hbefore hstart'),
      List.append_assoc, List.append_assoc]
    refine (LinesTell.cons hsame (.refl more)).imp ?_
    rintro ⟨hroot, -⟩
    refine ⟨hroot, fun hopen => (h hopen).holds ?_⟩
    rw [hnone hopen, hnone' hopen]

end Element

/-- The lines of a markup tell the start tags of the elements that are visible in it. -/
theorem Forest.linesTell {bindings bindings' : Bindings}
    (htag : ∀ e : Element, e.tag (bindings.get? e.id) = e.tag (bindings'.get? e.id))
    (bound : ∀ e : Element, e.IsBoundBy (bindings.get? e.id) ∧ e.IsBoundBy (bindings'.get? e.id))
    (forest : Forest) :
    LinesTell (∀ e ∈ Forest.visible forest,
        e.startText (bindings.get? e.id) = e.startText (bindings'.get? e.id))
      (codeLines (joinLines (Forest.markup bindings forest)).toList)
      (codeLines (joinLines (Forest.markup bindings' forest)).toList) := by
  induction forest using Forest.induction with
  | nil => exact (LinesTell.refl _).imp fun _ _ hm => by cases hm
  | cons e rest below beside =>
    have hempty : Forest.markup bindings e.children = [] ↔
        Forest.markup bindings' e.children = [] := by
      cases e.children <;> simp [Forest.markup]
    have here := Element.wrap_linesTell (htag e) (Element.break_notMem_startText (bound e).1)
      (Element.break_notMem_startText (bound e).2) hempty fun _ => below
    rw [codeLines_joinLines] at beside ⊢
    rw [codeLines_joinLines] at beside ⊢
    rw [Forest.markup, Forest.markup, List.flatMap_cons, List.flatMap_cons, Element.markup_eq,
      Element.markup_eq]
    refine (here.append beside).imp ?_
    rintro ⟨⟨hroot, hbelow⟩, hrest⟩
    rw [Forest.visible, Element.visible_eq]
    refine List.forall_mem_append.mpr ⟨List.forall_mem_cons.mpr ⟨hroot, ?_⟩, hrest⟩
    split
    · next hopen => exact hbelow hopen
    · exact List.forall_mem_nil _

/-- The start tags of the elements that are visible in a markup are all that bindings decide. -/
theorem Forest.markup_congr {bindings bindings' : Bindings} {forest : Forest}
    (htag : ∀ e ∈ Forest.visible forest,
      e.tag (bindings.get? e.id) = e.tag (bindings'.get? e.id))
    (h : ∀ e ∈ Forest.visible forest,
      e.startText (bindings.get? e.id) = e.startText (bindings'.get? e.id)) :
    Forest.markup bindings forest = Forest.markup bindings' forest := by
  induction forest using Forest.induction with
  | nil => simp only [Forest.markup]
  | cons e rest below beside =>
    rw [Forest.visible, Element.visible_eq] at htag h
    obtain ⟨tagRoot, tagRest⟩ := List.forall_mem_append.mp htag
    obtain ⟨tagHere, tagBelow⟩ := List.forall_mem_cons.mp tagRoot
    obtain ⟨hroot, hrest⟩ := List.forall_mem_append.mp h
    obtain ⟨here, hbelow⟩ := List.forall_mem_cons.mp hroot
    rw [Forest.markup, Forest.markup, Element.markup_eq, Element.markup_eq, beside tagRest hrest]
    congr 1
    refine Element.wrap_congr here tagHere fun hopen => ?_
    rw [if_pos hopen] at tagBelow hbelow
    exact below tagBelow hbelow

end Pagewright
