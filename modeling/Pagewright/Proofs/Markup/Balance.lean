import Pagewright.Proofs.Forest.Recursion
import Pagewright.Proofs.Markup.Bindings
import Pagewright.Proofs.Markup.Escape
import Pagewright.Proofs.Style.Classes

/-! The markup of a forest is level if no attribute value of a rendered element ends in an escape
and no custom element brings a component of its own. -/

namespace Pagewright

/-- Kinds whose children appear in markup. -/
def ElementKind.showsChildren (kind : ElementKind) : Bool :=
  kind = container || kind = form || kind = custom

mutual

/-- The elements of a subtree that appear in its markup. -/
def Element.rendered : Element → List Element
  | e@⟨_, _, _, _, _, _, _, children, _⟩ =>
    e :: if e.kind.showsChildren then Forest.rendered children else []

/-- The elements of a forest that appear in its markup. -/
def Forest.rendered : List Element → List Element
  | [] => []
  | e :: rest => e.rendered ++ Forest.rendered rest

end

namespace Element

/-- The texts that an element gives as attribute values, as they are before they are escaped. -/
def attributeValues (e : Element) : List String :=
  e.id :: match e.kind with
    | .image => e.src.toList ++ e.alt.toList
    | .input => ((e.setProp? "type").toList ++ (e.setProp? "placeholder").toList).map Scalar.shown
    | .button => (e.setProp? "type").toList.map Scalar.shown
    | _ => []

/-- A custom element with a component prop, which goes into the markup as it is. -/
def bringsComponent (e : Element) : Bool := e.kind = .custom && (e.setProp? "component").isSome

theorem rendered_eq (e : Element) :
    e.rendered = e :: if e.kind.showsChildren then Forest.rendered e.children else [] := by
  cases e
  rw [rendered]

theorem markup_eq (bindings : Bindings) (e : Element) : e.markup bindings =
    e.wrap (bindings.get? e.id) (Forest.markup bindings e.children) := by
  cases e
  rw [markup]

theorem attributeText_level {name value : String} (hname : Level name.toList)
    (h : ¬ EndsInEscape value) : Level (attributeText name value).toList := by
  have heq : Level "=".toList := rfl
  have htext : (attributeText name value).toList =
      name.toList ++ "=".toList ++ ('"' :: (escapeAttribute value).toList ++ ['"']) := by
    simp [attributeText]
  rw [htext]
  exact (hname.append heq).append ((escapeAttribute_inside h).level (.inl rfl))

theorem not_endsInEscape_joinWith {pieces : List String}
    (h : ∀ piece ∈ pieces, ¬ EndsInEscape piece) : ¬ EndsInEscape (joinWith " " pieces) := by
  induction pieces with
  | nil => decide
  | cons piece rest ih =>
    obtain ⟨hpiece, hrest⟩ := List.forall_mem_cons.mp h
    cases rest with
    | nil => exact hpiece
    | cons next rest =>
      have htext : (" " ++ joinWith " " (next :: rest)).toList =
          ' ' :: (joinWith " " (next :: rest)).toList := by simp
      rw [joinWith, String.append_assoc, endsInEscape_append piece htext (by decide)]
      · exact ih hrest
      · exact List.cons_ne_nil next rest

theorem endsInEscape_elementName (id : String) :
    EndsInEscape (elementName id) ↔ EndsInEscape id := by
  have htext : ("-" ++ id).toList = '-' :: id.toList := by simp
  have hname : elementName id = "element" ++ ("-" ++ id) := by
    rw [← String.append_assoc]
    rfl
  rw [hname]
  exact endsInEscape_append "element" htext (by decide)

/-- The binding of an element, if it has one, comes from an animation of that element. -/
def IsBoundBy (e : Element) (binding : Option Binding) : Prop :=
  ∀ b ∈ binding, ∃ (a : Animation) (backend : Backend), a.elementId = e.id ∧ b = a.binding backend

theorem isBoundBy_ofAnimations (animations : List Animation) (backend : Backend) (e : Element) :
    e.IsBoundBy ((Bindings.ofAnimations animations backend).get? e.id) := by
  intro binding h
  obtain ⟨a, -, hid, hbinding⟩ := Bindings.exists_animation h
  exact ⟨a, backend, hid, hbinding⟩

variable {e : Element} {binding : Option Binding}

theorem IsBoundBy.exists_motionAttributes (h : e.IsBoundBy binding) {text : String}
    (ht : e.motionAttributes? binding = some text) :
    ∃ a : Animation, text = a.motionProps.attributes := by
  unfold motionAttributes? at ht
  split at ht
  · next attributes =>
    split at ht
    · cases ht
    · obtain rfl := Option.some.inj ht
      obtain ⟨a, backend, -, hb⟩ := h _ rfl
      cases backend <;> cases hb
      exact ⟨a, rfl⟩
  · cases ht

/-- The classes of an element come from its styles and from what is bound to it. -/
theorem mem_classAttribute {text : String} (hm : text ∈ e.classAttribute binding) :
    ∃ classes, (∀ name ∈ classes, name ∈ classList e.styles ∨ binding = some (.className name)) ∧
      text = attributeText "className" (joinWith " " classes) := by
  unfold classAttribute at hm
  extract_lets bound classes at hm
  split at hm
  · cases hm
  · refine ⟨classList e.styles ++ bound, fun name hname => ?_, List.mem_singleton.mp hm⟩
    refine (List.mem_append.mp hname).imp_right fun hname => ?_
    unfold bound at hname
    split at hname
    · rw [List.mem_singleton.mp hname]
    · cases hname

/-- The names of the attributes that belong to kinds of elements and have values of their own. -/
def kindNames : List String := ["src", "alt", "type", "placeholder"]

/-- The attributes of kinds of elements whose values are fixed expressions. -/
def fixedAttributes : List (String × String) :=
  [("width", "500"), ("height", "300"), ("onSubmit", "(e) => e.preventDefault()")]

private theorem mem_optionalAttribute {name text : String} {value : Option String}
    (hm : text ∈ optionalAttribute name value) :
    ∃ v ∈ value.toList, text = attributeText name v := by
  cases value with
  | none => cases hm
  | some value =>
    simp only [optionalAttribute] at hm
    split at hm
    · cases hm
    · exact ⟨value, List.mem_cons_self, List.mem_singleton.mp hm⟩

private theorem propAttribute_eq (e : Element) (key default : String) :
    ∃ v, (v = default ∨ v ∈ (e.setProp? key).toList.map Scalar.shown) ∧
      e.propAttribute key default = attributeText key v := by
  unfold propAttribute
  cases e.setProp? key with
  | none => exact ⟨default, .inl rfl, rfl⟩
  | some value => exact ⟨value.shown, .inr List.mem_cons_self, rfl⟩

/-- An attribute that belongs to the kind of an element has a value that the element gives or a
default, or it is fixed. Only forms handle an event. -/
theorem mem_kindAttributes {text : String} (hm : text ∈ e.kindAttributes) :
    (∃ name ∈ kindNames, ∃ value, (value ∈ e.attributeValues ∨ value ∈ ["text", "button"]) ∧
      text = attributeText name value) ∨
    ∃ fixed ∈ fixedAttributes, (fixed.1 = "onSubmit" → e.kind = .form) ∧
      text = fixed.1 ++ "=\x7b" ++ fixed.2 ++ "\x7d" := by
  have hwidth : ("width", "500").1 ≠ "onSubmit" := by decide
  have hheight : ("height", "300").1 ≠ "onSubmit" := by decide
  unfold kindAttributes at hm
  unfold attributeValues
  cases hkind : e.kind with
  | image =>
    simp only [hkind, List.mem_append] at hm
    rcases hm with (hm | hm) | hm
    · obtain ⟨v, hv, rfl⟩ := mem_optionalAttribute hm
      exact .inl ⟨"src", by decide, v, .inl (by simp [hv]), rfl⟩
    · obtain ⟨v, hv, rfl⟩ := mem_optionalAttribute hm
      exact .inl ⟨"alt", by decide, v, .inl (by simp [hv]), rfl⟩
    · rcases List.mem_cons.mp hm with rfl | hm
      · exact .inr ⟨("width", "500"), by decide, fun h => absurd h hwidth, rfl⟩
      · obtain rfl := List.mem_singleton.mp hm
        exact .inr ⟨("height", "300"), by decide, fun h => absurd h hheight, rfl⟩
  | input =>
    simp only [hkind] at hm
    rcases List.mem_cons.mp hm with rfl | hm
    · obtain ⟨v, hv, htext⟩ := e.propAttribute_eq "type" "text"
      exact .inl ⟨"type", by decide, v, hv.symm.imp (by simp +contextual) (by simp +contextual),
        htext⟩
    · obtain ⟨value, hvalue, rfl⟩ := Option.map_eq_some_iff.mp (Option.mem_toList.mp hm)
      exact .inl ⟨"placeholder", by decide, value.shown, .inl (by simp [hvalue]), rfl⟩
  | button =>
    simp only [hkind] at hm
    obtain ⟨v, hv, htext⟩ := e.propAttribute_eq "type" "button"
    exact .inl ⟨"type", by decide, v, hv.symm.imp (by simp +contextual) (by simp +contextual),
      (List.mem_singleton.mp hm).trans htext⟩
  | form =>
    simp only [hkind] at hm
    obtain rfl := List.mem_singleton.mp hm
    exact .inr ⟨("onSubmit", "(e) => e.preventDefault()"), by decide, fun _ => rfl, rfl⟩
  | container | text | custom =>
    simp only [hkind] at hm
    cases hm

/-- What is bound to an element gives it an id, or the props of a motion. -/
theorem IsBoundBy.mem_bindingAttributes (h : e.IsBoundBy binding) {text : String}
    (hm : text ∈ e.bindingAttributes binding) :
    (∃ id, binding = some (.elementId id) ∧ text = attributeText "id" id) ∨
      ∃ a : Animation, text = a.motionProps.attributes := by
  unfold bindingAttributes at hm
  split at hm
  · next id => exact .inl ⟨id, rfl, List.mem_singleton.mp hm⟩
  · exact .inr (h.exists_motionAttributes (Option.mem_toList.mp hm))

section Attributes

variable (bound : e.IsBoundBy binding) (plain : ∀ value ∈ e.attributeValues, ¬ EndsInEscape value)
include bound plain

theorem not_endsInEscape_bound {name : String}
    (h : binding = some (.className name) ∨ binding = some (.elementId name)) :
    ¬ EndsInEscape name := by
  have hid : ¬ EndsInEscape e.id := plain e.id List.mem_cons_self
  have hname : name = elementName e.id := by
    rcases h with rfl | rfl <;> obtain ⟨a, backend, ha, hb⟩ := bound _ rfl <;> cases backend <;>
      cases hb <;> rw [ha]
  rwa [hname, endsInEscape_elementName]

theorem classAttribute_level : ∀ text ∈ e.classAttribute binding, Level text.toList := by
  intro text hm
  obtain ⟨classes, hclasses, rfl⟩ := mem_classAttribute hm
  refine attributeText_level (by decide) (not_endsInEscape_joinWith fun name hname => ?_)
  rcases hclasses name hname with hstyle | hbound
  · exact (plain_of_mem_classList hstyle).2
  · exact not_endsInEscape_bound bound plain (.inl hbound)

omit bound in
theorem kindAttributes_level : ∀ text ∈ e.kindAttributes, Level text.toList := by
  have hnames : ∀ name ∈ kindNames, Level name.toList := by decide
  have hdefaults : ∀ value ∈ ["text", "button"], ¬ EndsInEscape value := by decide
  have hfixed : ∀ fixed ∈ fixedAttributes,
      Level (fixed.1 ++ "=\x7b" ++ fixed.2 ++ "\x7d").toList := by decide
  intro text hm
  obtain ⟨name, hname, value, hvalue, rfl⟩ | ⟨fixed, hmem, -, rfl⟩ := mem_kindAttributes hm
  · exact attributeText_level (hnames name hname) (hvalue.elim (plain value) (hdefaults value))
  · exact hfixed fixed hmem

theorem bindingAttributes_level :
    ∀ text ∈ e.bindingAttributes binding, Level text.toList := by
  intro text hm
  obtain ⟨id, hid, rfl⟩ | ⟨a, rfl⟩ := bound.mem_bindingAttributes hm
  · exact attributeText_level (by decide) (not_endsInEscape_bound bound plain (.inr hid))
  · exact a.motionAttributes_level

theorem attributes_level : Level (joinWith " " (e.attributes binding)).toList := by
  have hspace : Level " ".toList := rfl
  refine Level.joinWith hspace fun text hm => ?_
  rcases List.mem_append.mp hm with hm | hm
  · rcases List.mem_append.mp hm with hm | hm
    · rcases List.mem_append.mp hm with hm | hm
      · exact classAttribute_level bound plain text hm
      · rw [List.mem_singleton.mp hm]
        exact attributeText_level (by decide) (plain e.id List.mem_cons_self)
    · exact kindAttributes_level plain text hm
  · exact bindingAttributes_level bound plain text hm

end Attributes

private theorem tags_level (kind : ElementKind) :
    (Level ("<" ++ kind.tag ++ " ").toList ∧ Level ("</" ++ kind.tag ++ ">").toList) ∧
      (Level ("<" ++ ("motion." ++ kind.tag) ++ " ").toList ∧
        Level ("</" ++ ("motion." ++ kind.tag) ++ ">").toList) := by
  cases kind <;> decide

theorem tag_level (e : Element) (binding : Option Binding) :
    Level ("<" ++ e.tag binding ++ " ").toList ∧ Level ("</" ++ e.tag binding ++ ">").toList := by
  unfold tag
  split
  · exact (tags_level e.kind).2
  · exact (tags_level e.kind).1

private theorem block_level {children : List String} (h : ∀ text ∈ children, Level text.toList) :
    Level (if children = [] then ""
      else "\n" ++ indentBlock (joinLines children) ++ "\n").toList := by
  have hbreak : Level "\n".toList := rfl
  split
  · rfl
  · rw [String.toList_append, String.toList_append, List.append_assoc]
    exact hbreak.append (indentBlock_level (Level.joinWith hbreak h))

/-- What stands between the tags is level in front of the closing tag. -/
theorem body_level (full : ¬ e.kind.isVoid) (plain : ¬ e.bringsComponent) {children : List String}
    (h : e.kind.showsChildren → ∀ text ∈ children, Level text.toList) {tail : List Char}
    (htail : Level ('<' :: tail)) : Level ((e.body children).toList ++ '<' :: tail) := by
  have hescaped (content : String) : Level ((escapeText content).toList ++ '<' :: tail) := by
    rw [escapeText, String.toList_ofList]
    exact escapeTextChars_level htail content.toList
  unfold body
  cases hkind : e.kind with
  | text => exact hescaped _
  | button => exact hescaped _
  | custom =>
    have hnone : e.setProp? "component" = none := by simpa [bringsComponent, hkind] using plain
    rw [hkind] at h
    rw [hnone]
    exact (block_level (h rfl)).append htail
  | container | form =>
    rw [hkind] at h
    exact (block_level (h rfl)).append htail
  | image | input =>
    rw [hkind] at full
    exact absurd rfl full

theorem wrap_level (bound : e.IsBoundBy binding)
    (values : ∀ value ∈ e.attributeValues, ¬ EndsInEscape value) (plain : ¬ e.bringsComponent)
    {children : List String}
    (h : e.kind.showsChildren → ∀ text ∈ children, Level text.toList) :
    Level (e.wrap binding children).toList := by
  obtain ⟨hopen, hclose⟩ := tag_level e binding
  have hstart :
      Level ("<" ++ e.tag binding ++ " " ++ joinWith " " (e.attributes binding)).toList := by
    rw [String.toList_append]
    exact hopen.append (attributes_level bound values)
  unfold wrap
  extract_lets start
  split
  · have hend : Level " />".toList := rfl
    rw [String.toList_append]
    exact hstart.append hend
  · next full =>
    have hend : Level ">".toList := rfl
    have htail : ("</" ++ e.tag binding ++ ">").toList =
        '<' :: ("/" ++ e.tag binding ++ ">").toList := by simp
    rw [htail] at hclose
    have htext : (start ++ ">" ++ e.body children ++ "</" ++ e.tag binding ++ ">").toList =
        start.toList ++ ">".toList ++
          ((e.body children).toList ++ '<' :: ("/" ++ e.tag binding ++ ">").toList) := by simp
    rw [htext]
    exact (hstart.append hend).append (body_level full plain h hclose)

end Element

/-- The markup of every root is level under the bindings of any animations. -/
theorem Forest.markup_level {bindings : Bindings} (forest : Forest)
    (bound : ∀ e : Element, e.IsBoundBy (bindings.get? e.id))
    (values : ∀ e ∈ Forest.rendered forest, ∀ value ∈ e.attributeValues, ¬ EndsInEscape value)
    (plain : ∀ e ∈ Forest.rendered forest, ¬ e.bringsComponent) :
    ∀ text ∈ Forest.markup bindings forest, Level text.toList := by
  induction forest using Forest.induction with
  | nil =>
    intro text hm
    rw [markup] at hm
    cases hm
  | cons e rest below beside =>
    rw [Forest.rendered, Element.rendered_eq] at values plain
    obtain ⟨valuesRoot, valuesRest⟩ := List.forall_mem_append.mp values
    obtain ⟨plainRoot, plainRest⟩ := List.forall_mem_append.mp plain
    obtain ⟨valuesHere, valuesBelow⟩ := List.forall_mem_cons.mp valuesRoot
    obtain ⟨plainHere, plainBelow⟩ := List.forall_mem_cons.mp plainRoot
    intro text hm
    rw [markup, Element.markup_eq] at hm
    rcases List.mem_cons.mp hm with rfl | hm
    · refine Element.wrap_level (bound e) valuesHere plainHere fun shows => ?_
      rw [if_pos shows] at valuesBelow plainBelow
      exact below valuesBelow plainBelow
    · exact beside valuesRest plainRest text hm

end Pagewright
