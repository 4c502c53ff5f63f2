import Pagewright.Proofs.Animation.Buckets
import Pagewright.Proofs.Markup.Lines
import Pagewright.Proofs.Markup.Outline

/-!
What markup shows of animations. Every element that is visible in it carries the binding of its last
animation, as a class, as an id or as motion props, and of no other.
-/

namespace Pagewright

variable {key : String}

theorem GiveValues.map_attributeText (hname : IsName key) (values : List String) :
    GiveValues key (values.map (attributeText key)) (values.map escapeAttribute) := by
  induction values with
  | nil => exact .nil
  | cons value rest ih =>
    have hvalue := attributeText_givesValues key hname value
    rw [if_pos rfl] at hvalue
    exact .cons hvalue ih

theorem GiveValues.map_attributeText_silent {name : String} (hname : IsName name)
    (hne : name ≠ key) (values : List String) :
    GiveValues key (values.map (attributeText name)) [] :=
  .silent (List.forall_mem_map.mpr fun value _ => attributeText_silent hname hne value)

namespace Element

variable (e : Element) (shown : Option Animation) (backend : Backend)

/-- The class names of an element by its styles alone, as one text. -/
def styleClasses : String := joinWith " " (classList e.styles)

/-- The class attribute: the classes of the styles, behind which a stylesheet adds the name of the
element if it has an animation. -/
def classTexts : List String :=
  if shown.isSome ∧ backend = .css then
    [(if e.styleClasses = "" then "" else e.styleClasses ++ " ") ++ elementName e.id]
  else if e.styleClasses = "" then [] else [e.styleClasses]

/-- The id attribute, which a script alone adds. -/
def idTexts : List String :=
  if shown.isSome ∧ backend = .script then [elementName e.id] else []

/-- Whether an animation shows in motion props. Images take none. -/
def ShowsMotion : Prop := shown.isSome ∧ backend = .motion ∧ e.kind ≠ .image

instance : Decidable (e.ShowsMotion shown backend) := inferInstanceAs (Decidable (_ ∧ _ ∧ _))

/-- An element shows an animation, or that it has none, under a binding. -/
structure Shows (binding : Option Binding) : Prop where
  className : GivesValues "className" (joinWith " " (e.attributes binding)).toList
    ((e.classTexts shown backend).map escapeAttribute)
  id : GivesValues "id" (joinWith " " (e.attributes binding)).toList
    ((e.idTexts shown backend).map escapeAttribute)
  lookup : ∀ a ∈ shown, ∃ before after, a.scriptSnippet = before ++
    ("const element = document.querySelector('#" ++ elementName e.id ++ "');") ++ after
  motion : e.ShowsMotion shown backend → e.tag binding = "motion." ++ e.kind.tag ∧
    ∀ a ∈ shown, ∃ before, e.startText binding = before ++ " " ++ a.motionProps.attributes
  still : ¬ e.ShowsMotion shown backend → e.tag binding = e.kind.tag ∧
    ∀ name ∈ motionKeys, GivesValues name (joinWith " " (e.attributes binding)).toList []

variable {e shown backend}

theorem styleClasses_eq_empty_iff : e.styleClasses = "" ↔ classList e.styles = [] := by
  refine ⟨fun h => ?_, fun h => by rw [styleClasses, h]; rfl⟩
  cases hclasses : classList e.styles with
  | nil => rfl
  | cons name rest =>
    have hname := (plain_of_mem_classList (hclasses ▸ List.mem_cons_self)).1
    rw [styleClasses, hclasses] at h
    cases rest with
    | nil => exact absurd h hname
    | cons next rest =>
      rw [joinWith, String.append_eq_empty_iff, String.append_eq_empty_iff] at h
      · exact absurd h.1.1 hname
      · exact List.cons_ne_nil next rest

section Binding

/-- With one more class the class names are separated by a space, if there are others. -/
private theorem joinWith_classes (name : String) : joinWith " " (classList e.styles ++ [name]) =
    (if e.styleClasses = "" then "" else e.styleClasses ++ " ") ++ name := by
  by_cases hempty : classList e.styles = []
  · rw [if_pos (styleClasses_eq_empty_iff.mpr hempty), hempty, String.empty_append]
    rfl
  · rw [if_neg (mt styleClasses_eq_empty_iff.mp hempty), joinWith_concat _ _ hempty]
    rfl

variable (hid : ∀ a ∈ shown, a.elementId = e.id)
include hid

theorem classAttribute_shown : e.classAttribute (shown.map fun a => a.binding backend) =
    (e.classTexts shown backend).map (attributeText "className") := by
  have hplain : joinWith " " (classList e.styles ++ []) = e.styleClasses := by
    rw [List.append_nil, styleClasses]
  unfold classAttribute classTexts
  cases shown with
  | none =>
    simp only [Option.map_none, hplain]
    split <;> rfl
  | some a =>
    cases backend with
    | css =>
      have hname : elementName e.id ≠ "" := by simp [elementName]
      simp [Animation.binding, joinWith_classes, hid a rfl, hname]
    | motion | script =>
      simp only [Option.map_some, Animation.binding, hplain]
      split <;> rfl

theorem bindingAttributes_shown : e.bindingAttributes (shown.map fun a => a.binding backend) =
    (e.idTexts shown backend).map (attributeText "id") ++
      if e.ShowsMotion shown backend then shown.toList.map fun a => a.motionProps.attributes
      else [] := by
  cases shown with
  | none => rfl
  | some a =>
    cases backend with
    | css => rfl
    | motion =>
      by_cases himage : e.kind = .image <;>
        simp [bindingAttributes, motionAttributes?, Animation.binding, idTexts, ShowsMotion, himage]
    | script => simp [bindingAttributes, Animation.binding, idTexts, ShowsMotion, hid a rfl]

omit hid in
theorem tag_shown : e.tag (shown.map fun a => a.binding backend) =
    if e.ShowsMotion shown backend then "motion." ++ e.kind.tag else e.kind.tag := by
  cases shown with
  | none => rfl
  | some a =>
    cases backend <;> by_cases himage : e.kind = .image <;>
      simp [tag, motionAttributes?, Animation.binding, ShowsMotion, himage]

/-- What an animation adds behind the attributes of its element: an id, or motion props. -/
private theorem bindingAttributes_giveValues
    (hkey : key ∈ motionKeys → ¬ e.ShowsMotion shown backend) :
    GiveValues key (e.bindingAttributes (shown.map fun a => a.binding backend))
      (if "id" = key then (e.idTexts shown backend).map escapeAttribute else []) := by
  have hids : GiveValues key ((e.idTexts shown backend).map (attributeText "id"))
      (if "id" = key then (e.idTexts shown backend).map escapeAttribute else []) := by
    split
    · next heq => exact heq ▸ .map_attributeText (by decide) _
    · next hne => exact .map_attributeText_silent (by decide) hne _
  rw [bindingAttributes_shown hid]
  split
  · next hmotion =>
    have hprops : GiveValues key (shown.toList.map fun a => a.motionProps.attributes) [] :=
      .silent (List.forall_mem_map.mpr fun a _ =>
        motionAttributes_silent (fun h => hkey h hmotion) a)
    have h := hids.append hprops
    rwa [List.append_nil] at h
  · rw [List.append_nil]
    exact hids

private theorem attributes_giveShown (hkind : key ∉ "data-element-id" :: kindKeys)
    (hkey : key ∈ motionKeys → ¬ e.ShowsMotion shown backend) {classes : List String}
    (hclass : GiveValues key (e.classAttribute (shown.map fun a => a.binding backend)) classes) :
    GivesValues key (joinWith " " (e.attributes (shown.map fun a => a.binding backend))).toList
      (classes ++ if "id" = key then (e.idTexts shown backend).map escapeAttribute else []) := by
  obtain ⟨hdata, hkind⟩ := not_or.mp (mt List.mem_cons.mpr hkind)
  have h := attributes_give hclass (.silent (kindAttributes_silent fun h => absurd h hkind))
    (bindingAttributes_giveValues hid hkey)
  rwa [if_neg fun heq => hdata heq.symm, List.append_nil, List.append_nil] at h

/-- The start tag of an element shows its animation, or that it has none. -/
theorem shows_shown : e.Shows shown backend (shown.map fun a => a.binding backend) where
  className := by
    have hclass : GiveValues "className"
        ((e.classTexts shown backend).map (attributeText "className"))
        ((e.classTexts shown backend).map escapeAttribute) := .map_attributeText (by decide) _
    rw [← classAttribute_shown hid] at hclass
    have h := attributes_giveShown hid (by decide) (fun h => absurd h (by decide)) hclass
    rwa [if_neg (by decide), List.append_nil] at h
  id := attributes_giveShown hid (by decide) (fun h => absurd h (by decide))
    (.silent (classAttribute_silent (by decide) e _))
  lookup a ha := by
    refine ⟨a.scriptImports ++ "\n", "\n\n" ++ a.scriptCode a.scriptSteps, ?_⟩
    rw [← hid a ha]
    unfold Animation.scriptSnippet Animation.scriptLookup
    simp only [String.append_assoc]
  motion hmotion := by
    refine ⟨by rw [tag_shown, if_pos hmotion], fun a ha => ?_⟩
    obtain rfl : shown = some a := ha
    have hbound : e.bindingAttributes ((some a).map fun a => a.binding backend) =
        [a.motionProps.attributes] := by
      obtain ⟨-, rfl, himage⟩ := hmotion
      simp [bindingAttributes, motionAttributes?, Animation.binding, himage]
    have hne : e.classAttribute ((some a).map fun a => a.binding backend) ++
        [attributeText "data-element-id" e.id] ++ e.kindAttributes ≠ [] := by simp
    rw [startText, attributes, hbound, joinWith_concat _ _ hne, ← String.append_assoc,
      ← String.append_assoc]
    exact ⟨_, rfl⟩
  still hstill := by
    refine ⟨by rw [tag_shown, if_neg hstill], fun name hname => ?_⟩
    have hkeys : ∀ name ∈ motionKeys, name ∉ "data-element-id" :: kindKeys ∧ "className" ≠ name ∧
        "id" ≠ name := by decide
    obtain ⟨hkind, hclass, hid'⟩ := hkeys name hname
    have h := attributes_giveShown hid hkind (fun _ => hstill)
      (.silent (classAttribute_silent hclass e _))
    rwa [if_neg hid', List.append_nil] at h

end Binding

end Element

namespace Element

variable {bindings : Bindings} {e : Element} {line : List Char}

/-- The start tag of an element begins the first line of its markup. -/
private theorem exists_first_line (bound : e.IsBoundBy (bindings.get? e.id)) : ∃ rest,
    (e.startText (bindings.get? e.id)).toList ++ rest ∈ codeLines (e.markup bindings).toList := by
  obtain ⟨gap, c, more, hgap, hc, htext⟩ :=
    e.exists_wrap (Forest.markup bindings e.children) (e.tag (bindings.get? e.id))
  obtain ⟨first, others, hlines⟩ := exists_codeLines_append hc more
  have hbefore : '\n' ∉ (e.startText (bindings.get? e.id)).toList ++ gap :=
    fun hm => (List.mem_append.mp hm).elim (break_notMem_startText bound) hgap
  refine ⟨gap ++ first, ?_⟩
  rw [markup_eq, htext _ rfl, hlines _ hbefore, List.append_assoc]
  exact List.mem_cons_self

/-- The lines of the children of an element stand further in among its own. -/
private theorem mem_codeLines_markup (bound : e.IsBoundBy (bindings.get? e.id)) (hopen : e.opens)
    (h : line ∈ codeLines (joinLines (Forest.markup bindings e.children)).toList) :
    List.replicate 2 ' ' ++ line ∈ codeLines (e.markup bindings).toList := by
  have hchildren : Forest.markup bindings e.children ≠ [] := by
    rintro hnil
    rw [hnil] at h
    cases h
  rw [markup_eq, codeLines_wrap_opens hopen hchildren (break_notMem_startText bound)]
  exact List.mem_append_left _ (List.mem_cons_of_mem _ (List.mem_map_of_mem h))

end Element

namespace Forest

variable {bindings : Bindings} {forest : Forest}

/-- The start tag of every visible element begins a line of the markup. -/
theorem exists_line_of_mem_visible (bound : ∀ e : Element, e.IsBoundBy (bindings.get? e.id)) :
    ∀ e ∈ Forest.visible forest, ∃ spaces rest,
      List.replicate spaces ' ' ++ ((e.startText (bindings.get? e.id)).toList ++ rest) ∈
        codeLines (joinLines (Forest.markup bindings forest)).toList := by
  induction forest using Forest.induction with
  | nil => nofun
  | cons root others below beside =>
    have hlines : codeLines (joinLines (Forest.markup bindings (root :: others))).toList =
        codeLines (root.markup bindings).toList ++
          codeLines (joinLines (Forest.markup bindings others)).toList := by
      rw [codeLines_joinLines, codeLines_joinLines, Forest.markup, List.flatMap_cons]
    rw [Forest.visible, Element.visible_eq, hlines]
    refine List.forall_mem_append.mpr ⟨List.forall_mem_cons.mpr ⟨?_, fun e hm => ?_⟩,
      fun e hm => ?_⟩
    · obtain ⟨rest, hline⟩ := Element.exists_first_line (bound root)
      exact ⟨0, rest, List.mem_append_left _ hline⟩
    · split at hm
      · next hopen =>
        obtain ⟨spaces, rest, hline⟩ := below e hm
        have hinside := Element.mem_codeLines_markup (bound root) hopen hline
        rw [← List.append_assoc, List.replicate_append_replicate] at hinside
        exact ⟨2 + spaces, rest, List.mem_append_left _ hinside⟩
      · cases hm
    · obtain ⟨spaces, rest, hline⟩ := beside e hm
      exact ⟨spaces, rest, List.mem_append_right _ hline⟩

theorem visible_subset_preorder (forest : Forest) :
    Forest.visible forest ⊆ Forest.preorder forest := by
  induction forest using Forest.induction with
  | nil => exact List.Subset.refl _
  | cons root others below beside =>
    rw [visible, Element.visible_eq, preorder_cons, List.cons_append]
    refine List.cons_subset_cons _ (List.append_subset.mpr ⟨?_, ?_⟩)
    · split
      · exact List.subset_append_of_subset_left _ below
      · exact List.nil_subset _
    · exact List.subset_append_of_subset_right _ beside

/-- Only the bindings of its elements matter to a forest. -/
theorem markup_insert {id : String} (h : ∀ e ∈ preorder forest, e.id ≠ id) (bindings : Bindings)
    (binding : Binding) : Forest.markup (bindings.insert id binding) forest =
      Forest.markup bindings forest := by
  have hsame : ∀ e ∈ Forest.visible forest, (bindings.insert id binding).get? e.id =
      bindings.get? e.id := fun e hm => by
    rw [Dict.get?_insert, if_neg fun heq => h e (visible_subset_preorder forest hm) heq.symm]
  exact markup_congr (fun e hm => by rw [hsame e hm]) fun e hm => by rw [hsame e hm]

end Forest

namespace Element

theorem shows_ofAnimations (animations : List Animation) (backend : Backend) (e : Element) :
    e.Shows (shownAnimation? animations e.id) backend
      ((Bindings.ofAnimations animations backend).get? e.id) := by
  rw [Bindings.get?_ofAnimations]
  refine shows_shown fun a ha => ?_
  obtain ⟨-, hid⟩ := List.mem_filter.mp (List.mem_of_getLast? ha)
  exact of_decide_eq_true hid

/-- Every element that is visible in a markup shows its last animation, or that it has none, in the
start tag that begins a line there. Where no component is brought along, the reading of the whole
markup finds these classes and ids and no others. Bindings for other ids change nothing. -/
theorem markup_shows_last_animations (animations : List Animation) (backend : Backend)
    (e : Element) :
    (∀ d ∈ e.visible,
      d.Shows (shownAnimation? animations d.id) backend
          ((Bindings.ofAnimations animations backend).get? d.id) ∧
        ∃ spaces rest, List.replicate spaces ' ' ++
            ((d.startText ((Bindings.ofAnimations animations backend).get? d.id)).toList ++ rest) ∈
          codeLines (e.markup (.ofAnimations animations backend)).toList) ∧
      ((∀ d ∈ e.rendered, ¬ d.bringsComponent) →
        outlines? "className" (e.markup (.ofAnimations animations backend)) =
            some [e.outline fun d => (d.shownTag animations backend,
              (d.classTexts (shownAnimation? animations d.id) backend).map escapeAttribute)] ∧
          outlines? "id" (e.markup (.ofAnimations animations backend)) =
            some [e.outline fun d => (d.shownTag animations backend,
              (d.idTexts (shownAnimation? animations d.id) backend).map escapeAttribute)]) ∧
      ∀ id, (∀ d ∈ e.preorder, d.id ≠ id) → ∀ (bindings : Bindings) (binding : Binding),
        e.markup (bindings.insert id binding) = e.markup bindings := by
  refine ⟨fun d hd => ⟨d.shows_ofAnimations animations backend, ?_⟩, fun plain => ⟨?_, ?_⟩,
    fun id hid bindings binding => ?_⟩
  · have hmem : d ∈ Forest.visible [e] := by simpa [Forest.visible] using hd
    have hline := Forest.exists_line_of_mem_visible (isBoundBy_ofAnimations animations backend) d
      hmem
    simpa [Forest.markup, joinLines, joinWith] using hline
  · exact outlines?_markup plain fun d => (d.shows_ofAnimations animations backend).className
  · exact outlines?_markup plain fun d => (d.shows_ofAnimations animations backend).id
  · have hforest : Forest.markup (bindings.insert id binding) [e] = Forest.markup bindings [e] :=
      Forest.markup_insert (by simpa [Forest.preorder] using hid) bindings binding
    simpa [Forest.markup] using hforest

/-- A card with a heading that is animated twice, beside a picture. -/
def gallery : Element :=
  let title := { bare "title" .text with styles := .ofList [("display", .text "flex")] }
  ((bare "card" .container).withChild title).withChild (bare "photo" .image)

private def galleryAnimations : List Animation :=
  [.bare "in" "title" .entry, .bare "out" "title" .exit, .bare "pan" "photo" .hover]

theorem gallery_shows_last_animations :
    shownAnimation? galleryAnimations "title" = some (.bare "out" "title" .exit) ∧
      (∀ d ∈ gallery.rendered, ¬ d.bringsComponent) ∧
      outlines? "className" (gallery.markup (.ofAnimations galleryAnimations .css)) =
        some [.node "div" [] [.node "p" ["flex element-title"] [],
          .node "Image" ["element-photo"] []]] ∧
      (∀ d ∈ gallery.preorder, d.id ≠ "banner") ∧
      gallery.markup (.ofAnimations (galleryAnimations ++ [.bare "drop" "banner" .click]) .css) =
        gallery.markup (.ofAnimations galleryAnimations .css) := by
  have plain : ∀ d ∈ gallery.rendered, ¬ d.bringsComponent := by decide
  have habsent : ∀ d ∈ gallery.preorder, d.id ≠ "banner" := by decide
  obtain ⟨-, hread, hinsert⟩ := markup_shows_last_animations galleryAnimations .css gallery
  refine ⟨rfl, plain, (hread plain).1, habsent, ?_⟩
  exact hinsert "banner" habsent (.ofAnimations galleryAnimations .css) _

end Element

end Pagewright
