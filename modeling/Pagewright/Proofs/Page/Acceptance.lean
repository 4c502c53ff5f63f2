import Pagewright.Page.Source
import Pagewright.Proofs.Forest.Calls
import Pagewright.Proofs.Markup.Balance
import Pagewright.Proofs.Page.Metadata
import Pagewright.Proofs.Page.Template

/-! Which pages the built-in formatter accepts. The one thing that can make it refuse a page with
nothing foreign in it is an attribute value that ends in an odd number of backslashes. -/

namespace Pagewright

theorem Forest.rendered_subset (forest : Forest) :
    ∀ e ∈ Forest.rendered forest, e ∈ Forest.preorder forest := by
  induction forest using Forest.induction with
  | nil =>
    intro e hm
    rw [rendered] at hm
    cases hm
  | cons root rest below beside =>
    intro e hm
    rw [rendered, Element.rendered_eq] at hm
    rw [Forest.preorder_cons]
    rcases List.mem_append.mp hm with hm | hm
    · rcases List.mem_cons.mp hm with rfl | hm
      · exact List.mem_cons_self
      · split at hm
        · exact List.mem_cons_of_mem _ (List.mem_append_left _ (below e hm))
        · cases hm
    · exact List.mem_cons_of_mem _ (List.mem_append_right _ (beside e hm))

namespace Page

variable {p : Page} {options : PageOptions}

/-- A valid page whose source is all generated: metadata keys are identifiers, no custom element
brings a component, and nothing is imported or mounted besides. -/
structure IsSelfContained (p : Page) (options : PageOptions) : Prop where
  valid : p.validate = .ok ()
  keys : p.HasIdentifierKeys
  plain : ∀ e ∈ Forest.preorder p.layout, ¬ e.bringsComponent
  imports : options.imports = []
  mounts : options.mounts = []

/-- Without a time limit the built-in formatter accepts what passes the brace check. -/
theorem source_builtIn_iff : (∃ text, p.source .builtIn options = .ok text) ↔
    checkBraces (p.draft options).toList = .ok () := by
  change (∃ text, (tidy (p.draft options).toList).map String.ofList = .ok text) ↔ _
  unfold tidy
  cases checkBraces (p.draft options).toList with
  | ok _ => exact iff_of_true ⟨_, rfl⟩ rfl
  | error fault => exact iff_of_false nofun nofun

theorem source_builtIn_error {line : Nat} {fault : BraceFault}
    (h : checkBraces (p.draft options).toList = .error (line, fault)) :
    p.source .builtIn options = .error (.malformed line fault) := by
  change (tidy (p.draft options).toList).map String.ofList = _
  rw [tidy, h]
  rfl

private theorem importLines_level (h : options.imports = []) :
    ∀ line ∈ p.importLines options, Level line.toList := by
  have hfixed : ∀ line ∈ ["import \x7b Metadata \x7d from \"next\";",
      "import Image from \"next/image\";", "import \x7b motion \x7d from \"framer-motion\";"],
      Level line.toList := by decide
  intro line hm
  refine hfixed line ?_
  simp only [importLines, h, List.append_nil] at hm
  rcases List.mem_append.mp hm with hm | hm
  · rcases List.mem_append.mp hm with hm | hm
    · exact List.mem_cons.mpr (.inl (List.mem_singleton.mp hm))
    · split at hm
      · simp_all
      · cases hm
  · split at hm
    · simp_all
    · cases hm

theorem draft_level (h : p.IsSelfContained options)
    (values : ∀ e ∈ Forest.rendered p.layout, ∀ value ∈ e.attributeValues, ¬ EndsInEscape value) :
    Level (p.draft options).toList := by
  have hbreak : Level "\n".toList := rfl
  have hgap : Level "\n\n".toList := rfl
  have hdirective :
      Level (if p.needsClient options then "\"use client\";\n\n" else "").toList := by
    split <;> decide
  have himports : Level (joinLines (p.importLines options)).toList :=
    .joinWith hbreak (importLines_level h.imports)
  have hmarkup : Level (p.markupBlock options).toList := by
    simp only [markupBlock, h.mounts, List.append_nil]
    refine Level.joinWith hbreak (Forest.markup_level p.layout ?_ values ?_)
    · exact Element.isBoundBy_ofAnimations options.animations options.backend
    · exact fun e hm => h.plain e (Forest.rendered_subset p.layout e hm)
  have hcomponent : Level (p.component options).toList := by
    refine Template.fill_page_level ?_ p.mode
    intro markup hm
    simp only [TemplateData.ofPage] at hm
    split at hm
    · cases hm
    · obtain rfl := Option.some.inj hm
      exact hmarkup
  unfold draft
  simp only [String.toList_append]
  exact ((((hdirective.append himports).append hgap).append (metadataSource_level h.keys)).append
    hgap).append hcomponent

/-- A self-contained page is accepted if no attribute value ends in an escape. -/
theorem source_builtIn_ok (h : p.IsSelfContained options)
    (values : ∀ e ∈ Forest.rendered p.layout, ∀ value ∈ e.attributeValues, ¬ EndsInEscape value) :
    ∃ text, p.source .builtIn options = .ok text :=
  source_builtIn_iff.mpr (Passes.checkBraces_eq_ok (draft_level h values))

private theorem single_validate {id name : String} {e : Element} (childless : e.children = [])
    (root : e.parentId = none) :
    ({ bare id name "home" with layout := [e] } : Page).validate = .ok () := by
  have hslug : isSlug "home" = true := by decide
  have hpreorder : Forest.preorder [e] = [e] := by
    rw [Forest.preorder_cons, childless]
    rfl
  have hids : Forest.collectIds [e] = .ok [e.id] := by
    refine Forest.collectIds_eq_ok_iff.mpr ?_
    rw [Forest.ids, hpreorder]
    exact ⟨List.pairwise_singleton _ e.id, rfl⟩
  have hparents : Forest.checkParents [e] = .ok () := by
    refine Forest.checkParentsUnder_cons.mpr ⟨⟨root, ?_⟩, Forest.checkParentsUnder_nil none⟩
    rw [childless]
    exact Forest.checkParentsUnder_nil _
  simp [validate, bare, hslug, hids, hparents]

section Refusal

variable (id : String)

/-- A text without content, whose animation has an easing that opens a brace. -/
private def animatedText : Page := { bare "p" "Home" "home" with layout := [Element.bare id .text] }

private def openEasing : Animation :=
  { Animation.bare "a" id .entry with tracks := [⟨"t", id, "opacity", [], "\x7b"⟩] }

private def openEasingOptions : PageOptions := ⟨[openEasing id], .motion, [], []⟩

private def motionClosing : String :=
  "\" " ++ (openEasing "").motionProps.attributes ++ "></motion.p>"

private theorem animatedText_isSelfContained :
    (animatedText id).IsSelfContained (openEasingOptions id) where
  valid := single_validate rfl rfl
  keys := nofun
  plain := by
    intro e hm
    rw [List.mem_singleton.mp hm]
    exact Bool.false_ne_true
  imports := rfl
  mounts := rfl

private theorem animatedText_markup : (animatedText id).markupBlock (openEasingOptions id) =
    "<motion.p data-element-id=\"" ++ escapeAttribute id ++ motionClosing := by
  unfold markupBlock
  extract_lets bindings
  have hbinding :
      bindings.get? id = some (.motionProps (openEasing "").motionProps.attributes) := by
    change (Dict.empty.insert id ((openEasing id).binding .motion)).get? id = _
    rw [Dict.get?_insert, if_pos rfl]
    rfl
  change joinLines [(Element.bare id .text).markup bindings] = _
  rw [Element.markup_eq]
  change (Element.bare id .text).wrap (bindings.get? id) _ = _
  rw [hbinding, motionClosing]
  generalize (openEasing "").motionProps.attributes = attributes
  have hattributes : (Element.bare id .text).attributes (some (.motionProps attributes)) =
      [attributeText "data-element-id" id, attributes] := rfl
  have htag : (Element.bare id .text).tag (some (.motionProps attributes)) = "motion.p" := rfl
  have hvoid : (Element.bare id .text).kind.isVoid = false := rfl
  have hbody (children : List String) : (Element.bare id .text).body children = "" := rfl
  apply String.toList_injective
  rw [Element.wrap, hvoid, htag, hattributes, hbody]
  simp [joinWith, attributeText]

private def draftBefore : String :=
  "\"use client\";\n\n" ++ joinLines ((animatedText "").importLines (openEasingOptions "")) ++
    "\n\n" ++ (animatedText "").metadataSource ++ "\n\n" ++ "export default function " ++
    componentName "Home" ++ "() \x7b\n" ++ "  return (\n" ++ "    <main>" ++ "\n"

private def draftAfter : String := "\n    " ++ "</main>\n" ++ "  );\n" ++ "\x7d\n"

private theorem animatedText_draft : ∃ k,
    ((animatedText id).draft (openEasingOptions id)).toList =
      draftBefore.toList ++ (List.replicate k ' ' ++
        ("<motion.p data-element-id=\"".toList ++ (escapeAttribute id).toList ++
          motionClosing.toList)) ++ draftAfter.toList := by
  have hneeds : (animatedText id).needsClient (openEasingOptions id) = true := rfl
  have himports : (animatedText id).importLines (openEasingOptions id) =
      (animatedText "").importLines (openEasingOptions "") := rfl
  have hmetadata : (animatedText id).metadataSource = (animatedText "").metadataSource := rfl
  have hmarkup := animatedText_markup id
  generalize hblock : (animatedText id).markupBlock (openEasingOptions id) = markup at hmarkup
  have hbreak : '\n' ∉ markup.toList := by
    have hopen : '\n' ∉ "<motion.p data-element-id=\"".toList := by decide
    have hclose : '\n' ∉ motionClosing.toList := by decide +kernel
    simp only [hmarkup, String.toList_append, List.mem_append, not_or]
    exact ⟨⟨hopen, notMem_escapeAttribute (.inr rfl) id⟩, hclose⟩
  have hfull : markup.toList ≠ [] := by
    have hopen : "<motion.p data-element-id=\"".toList ≠ [] := by decide
    rw [hmarkup, String.toList_append, String.toList_append, List.append_assoc]
    exact List.append_ne_nil_of_left_ne_nil hopen _
  obtain ⟨k, hk⟩ : ∃ k, (indentText markup 6).toList = List.replicate k ' ' ++ markup.toList := by
    obtain ⟨k, hk⟩ := indentBy_indents 6 markup.toList
    refine ⟨k, ?_⟩
    rw [indentText, lines_of_break_notMem hbreak hfull, ← hk]
    exact String.toList_ofList
  have hcomponent : (animatedText id).component (openEasingOptions id) =
      Template.staticPage ⟨"Home", some markup⟩ := by
    have hset : markup ≠ "" := by
      rintro rfl
      exact hfull rfl
    change Template.staticPage (.ofPage "Home" ((animatedText id).markupBlock _)) = _
    rw [hblock, TemplateData.ofPage, if_neg hset]
  refine ⟨k, ?_⟩
  unfold draft
  rw [if_pos hneeds, himports, hmetadata, hcomponent]
  unfold Template.staticPage TemplateData.mainBlock draftBefore draftAfter
  dsimp only
  simp only [String.toList_append, List.append_assoc, hk]
  rw [hmarkup]
  simp only [String.toList_append, List.append_assoc]

private theorem run?_around {before opening closing after : List Char} {r : Reading}
    (h : EndsInEscape id) (hbefore : Reading.run? ⟨.code, 0⟩ before = some ⟨.code, 1⟩)
    (hopening : Reading.run? ⟨.code, 1⟩ opening = some ⟨.quoted '"', 1⟩)
    (hafter : Reading.run? ⟨.escaped '"', 1⟩ (closing ++ after) = some r) (k : Nat) :
    Reading.run? ⟨.code, 0⟩ (before ++ (List.replicate k ' ' ++
      (opening ++ (escapeAttribute id).toList ++ closing)) ++ after) = some r := by
  have hspaces : Reading.run? ⟨.code, 1⟩ (List.replicate k ' ') = some ⟨.code, 1⟩ :=
    Reading.run?_of_calmRun? ((Level.spaces k).passes 1)
  have hmode : attributeMode id.toList = .escaped '"' := if_pos h
  rw [Reading.run?_append] at hafter
  simp only [Reading.run?_append, hbefore, hspaces, hopening, run?_escapeAttribute, hmode,
    Option.bind_some, hafter]

/-- The value hides its closing mark, so that the easing is read as code. -/
private theorem animatedText_refused {id : String} (h : EndsInEscape id) :
    ¬ ∃ text, (animatedText id).source .builtIn (openEasingOptions id) = .ok text := by
  have hbefore : Reading.run? ⟨.code, 0⟩ draftBefore.toList = some ⟨.code, 1⟩ := by
    unfold draftBefore
    simp only [String.toList_append]
    decide +kernel
  have hopening : Reading.run? ⟨.code, 1⟩ "<motion.p data-element-id=\"".toList =
      some ⟨.quoted '"', 1⟩ := by decide
  have hafter : Reading.run? ⟨.escaped '"', 1⟩ (motionClosing.toList ++ draftAfter.toList) =
      some ⟨.code, 1⟩ := by
    unfold motionClosing draftAfter
    simp only [String.toList_append]
    decide +kernel
  obtain ⟨k, hdraft⟩ := animatedText_draft id
  rw [source_builtIn_iff, checkBraces_eq_ok_iff, hdraft, run?_around id h hbefore hopening hafter k]
  rintro ⟨mode, hrun⟩
  cases hrun

end Refusal

/-- Which attribute values are harmless: of all self-contained pages whose values are allowed, the
built-in formatter accepts every one exactly when no allowed value ends in an odd number of
backslashes. All other texts of the page and of its animations may be anything. -/
theorem builtIn_accepts_iff (allowed : String → Prop) :
    (∀ (p : Page) (options : PageOptions), p.IsSelfContained options →
      (∀ e ∈ Forest.rendered p.layout, ∀ value ∈ e.attributeValues, allowed value) →
      ∃ text, p.source .builtIn options = .ok text) ↔
    ∀ value, allowed value → ¬ EndsInEscape value := by
  constructor
  · intro accepted value ok ends
    refine animatedText_refused ends (accepted _ _ (animatedText_isSelfContained value) ?_)
    intro e he v hv
    rw [List.mem_singleton.mp he] at hv
    rwa [List.mem_singleton.mp hv]
  · intro plain p options contained ok
    exact source_builtIn_ok contained fun e he value hv => plain value (ok e he value hv)

/-- A page with one image, whose source is a backslash. -/
private def backslashImage : Page :=
  { bare "p1" "Home" "home" with layout := [(Element.bare "img" .image).withImage "\\" "\x7b"] }

/-- Its alternative text is read as code, in which a brace is opened and never closed. -/
theorem backslash_source_refused :
    backslashImage.IsSelfContained ⟨[], .css, [], []⟩ ∧
      backslashImage.source .builtIn ⟨[], .css, [], []⟩ = .error (.malformed 8 .unclosedOpen) := by
  have hrun : (BraceScan.start.run (backslashImage.draft ⟨[], .css, [], []⟩).toList).toOption =
      some ⟨.code, 15, [8]⟩ := by
    unfold draft component Template.fill Template.staticPage TemplateData.mainBlock
    simp only [String.toList_append]
    decide +kernel
  constructor
  · refine ⟨single_validate rfl rfl, nofun, ?_, rfl, rfl⟩
    intro e he
    rw [List.mem_singleton.mp he]
    exact Bool.false_ne_true
  · exact source_builtIn_error (checkBraces_unclosed hrun)

end Page

end Pagewright
