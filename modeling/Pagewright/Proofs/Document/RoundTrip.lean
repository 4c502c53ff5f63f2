import Pagewright.Proofs.Document.Values
import Pagewright.Proofs.Json.RoundTrip

/-! Pages, animations and sites that have been read from a text are read again from the text that
is written for them. -/

namespace Pagewright

namespace Json

/-- A finite number is read back from its text as itself. -/
def ReadsBackNumber : Json → Prop
  | .number n => n.isFinite → n.ReadsBack
  | _ => True

instance : DecidablePred ReadsBackNumber := fun leaf =>
  match leaf with
  | .number n => inferInstanceAs (Decidable (n.isFinite → n.ReadsBack))
  | .null | .bool _ | .int _ | .string _ | .array _ | .object _ | .unusable =>
    inferInstanceAs (Decidable True)

instance (p : Json → Prop) [DecidablePred p] (j : Json) : Decidable (j.Every p) :=
  inferInstanceAs (Decidable (∀ leaf ∈ j.leaves, p leaf))

theorem writable_of_usable {j : Json} (husable : j.Every IsUsable)
    (hnumbers : j.Every ReadsBackNumber) : j.Writable := by
  intro leaf hleaf
  obtain ⟨hrange, hvalue⟩ := husable leaf hleaf
  cases leaf with
  | int i => exact hrange
  | number n => exact hnumbers (.number n) hleaf hrange
  | unusable => exact hvalue rfl
  | _ => trivial

end Json

namespace Decoder

private theorem slots_page (p : Page) : slots? pageFields p.toDocument =
    some [some (.string p.id), some (.string p.name), some (.string p.slug),
      some (.string p.mode.name), p.metadata.map PageMeta.toDocument,
      some (Forest.toDocument p.layout), some (.bool p.isPublished)] := by
  rw [Page.toDocument]
  cases p.metadata <;> rfl

private theorem metadata_restores {metadata : Option PageMeta} {limit : Nat}
    (h : ∀ m ∈ metadata, ∀ e ∈ m.entries, Restores metaValue MetaValue.toDocument e.2)
    (hdepth : ∀ m ∈ metadata, m.toDocument.depth ≤ limit) :
    optional none (nullable (dict metaValue)) limit (metadata.map PageMeta.toDocument) =
      some metadata := by
  cases metadata with
  | none => rfl
  | some m =>
    have read : dict metaValue limit m.toDocument = some m :=
      dict_restores (h m rfl) limit (hdepth m rfl)
    change (dict metaValue limit m.toDocument).map some = _
    rw [read, Option.map_some]

theorem page_restores {p : Page}
    (h : ∀ m ∈ p.metadata, ∀ e ∈ m.entries, Restores metaValue MetaValue.toDocument e.2) :
    Restores page Page.toDocument p := by
  intro limit hdepth
  have slots := slots_page p
  obtain ⟨inner, rfl, hmembers⟩ := Json.depth_object_le.mp hdepth
  have mode : named RenderMode.all RenderMode.name inner (.string p.mode.name) = some p.mode := by
    cases p.mode <;> rfl
  have metadata := metadata_restores h fun m (hm : p.metadata = some m) =>
    hmembers ("meta", m.toDocument) (by simp [hm])
  have layout : list element inner (Forest.toDocument p.layout) = some p.layout := by
    have hlayout := hmembers ("layout", Forest.toDocument p.layout) (by simp)
    rw [Forest.toDocument, Forest.toDocuments_eq] at hlayout ⊢
    exact list_restores (elements_restore p.layout) inner hlayout
  rw [page, slots]
  simp only [required, optional_some, string, bool, mode, metadata, layout, Option.bind_some]
  rfl

theorem site_restores {s : Site} (h : ∀ p ∈ s.pages, Restores page Page.toDocument p) :
    Restores site Site.toDocument s := by
  intro limit hdepth
  obtain ⟨inner, rfl, hmembers⟩ := Json.depth_object_le.mp hdepth
  have slots : slots? siteFields s.toDocument =
      some [some (.string s.name), some (.string s.slug), some (.bool s.hasAuth),
        some (.string s.backend.name), some (.array (s.pages.map Page.toDocument)),
        some (animationsDocument s.animations)] := rfl
  have backend : named Backend.all Backend.name inner (.string s.backend.name) =
      some s.backend := by
    cases s.backend <;> rfl
  have pages := list_restores h inner
    (hmembers ("pages", .array (s.pages.map Page.toDocument)) (by simp))
  have animations : list animation inner (animationsDocument s.animations) = some s.animations :=
    list_restores (fun a _ => animation_restores a) inner
      (hmembers ("animations", animationsDocument s.animations) (by simp))
  rw [site, slots]
  simp only [required, optional_some, string, bool, backend, pages, animations, Option.bind_some]
  rfl

/-- A page that has been decoded is restored. -/
theorem page_restores_of_read {limit : Nat} {j : Json} {p : Page} (read : page limit j = some p) :
    Restores page Page.toDocument p := by
  refine page_restores fun m hm e he => ?_
  obtain ⟨inner, _, _, ⟨slot, _, metadata⟩, _⟩ := page_eq_some read
  cases slot with
  | none =>
    cases metadata.trans (congrArg some hm)
  | some j =>
    rw [hm] at metadata
    obtain ⟨_, _, _, _, entries⟩ := exists_of_mem_dict (of_nullable_some metadata)
    obtain ⟨member, _, hvalue⟩ := entries e he
    exact metaValue_restores hvalue

/-- A site that has been decoded is restored. -/
theorem site_restores_of_read {limit : Nat} {j : Json} {s : Site} (read : site limit j = some s) :
    Restores site Site.toDocument s := by
  refine site_restores fun p hp => ?_
  obtain ⟨inner, _, _, ⟨slot, _, pages⟩, _⟩ := site_eq_some read
  cases slot with
  | none =>
    have empty : [] = s.pages := Option.some.inj pages
    rw [← empty] at hp
    cases hp
  | some j =>
    obtain ⟨_, _, _, _, items⟩ := exists_of_mem_list pages
    obtain ⟨item, _, hpage⟩ := items p hp
    exact page_restores_of_read hpage

private theorem read?_compact_of_read {α : Type} {decode : Decoder α} (toDocument : α → Json)
    (hyields : Yields nestingLimit decode toDocument)
    (hrestores : ∀ {j x}, decode nestingLimit j = some x → Restores decode toDocument x)
    {text : String} {x : α} (read : read? decode text = some x)
    (hdepth : (toDocument x).depth ≤ nestingLimit)
    (hnumbers : (toDocument x).Every Json.ReadsBackNumber) :
    read? decode (toDocument x).compact = some x := by
  obtain ⟨j, hparse, hdecode⟩ := Option.bind_eq_some_iff.mp read
  have usable := hyields j x (Json.every_inRange_of_parse? hparse) hdecode
  rw [read?, Json.parse?_compact (Json.writable_of_usable usable hnumbers), Option.bind_some]
  exact hrestores hdecode nestingLimit hdepth

/-- Whatever text a page, a list of animations or a site has been read from, the text that is
written for it reads as the same value again, unless it is nested too deep. Of the text of numbers
it is only used that those of the value are read back. -/
theorem written_values_are_read_again :
    (∀ text p, read? page text = some p → p.toDocument.depth ≤ nestingLimit →
      p.toDocument.Every Json.ReadsBackNumber →
        read? page p.toDocument.compact = some p) ∧
    (∀ text animations, read? (list animation) text = some animations →
      (animationsDocument animations).depth ≤ nestingLimit →
      (animationsDocument animations).Every Json.ReadsBackNumber →
        read? (list animation) (animationsDocument animations).compact = some animations) ∧
    (∀ text s, read? site text = some s → s.toDocument.depth ≤ nestingLimit →
      s.toDocument.Every Json.ReadsBackNumber →
        read? site s.toDocument.compact = some s) := by
  refine ⟨fun _ _ => ?_, fun _ _ => ?_, fun _ _ => ?_⟩
  · exact read?_compact_of_read Page.toDocument (page_yields _) page_restores_of_read
  · exact read?_compact_of_read animationsDocument
      (list_yields fun inner _ => animation_yields inner)
      fun _ => list_restores fun a _ => animation_restores a
  · exact read?_compact_of_read Site.toDocument (site_yields _) site_restores_of_read

/-- A page with fields left out, a repeated key, null, and metadata of every form. -/
def sparsePageText : String :=
  "\x7b\"id\":\"p\",\"name\":\"P\",\"slug\":\"p\"," ++
    "\"meta\":\x7b\"a\":\"b\",\"c\":\x7b\"e\":[2],\"d\":null\x7d,\"a\":[\"f\"],\"g\":1\x7d," ++
    "\"layout\":[\x7b\"id\":\"e\",\"type\":\"text\",\"alt\":null," ++
      "\"styles\":\x7b\"a\":null\x7d\x7d]\x7d"

/-- An animation that has its fields in order, with a repeated property. -/
def sparseAnimationsText : String :=
  "[[\"a\",\"e\",\"fade\",\"entry\",[[\"t\",\"e\",\"y\",[[\"k\",0," ++
    "\x7b\"y\":1,\"z\":null,\"y\":-2e1\x7d]]]],1000]]"

def sparseSiteText : String := "[\"S\",\"s\",true,\"css\",[[\"q\",\"Q\",\"q\"]]]"

/-- A check of what has been read from a text. -/
private theorem exists_of_check {α : Type} {read : Option α} {check : α → Prop}
    [DecidablePred check] (h : read.any fun x => decide (check x)) :
    ∃ x, read = some x ∧ check x := by
  obtain ⟨x, hread, hcheck⟩ := (Option.any_eq_true _ _).mp h
  exact ⟨x, hread, of_decide_eq_true hcheck⟩

theorem sparse_values_are_read_again : ∃ p animations s,
    read? page sparsePageText = some p ∧ p.toDocument.compact ≠ sparsePageText ∧
      read? page p.toDocument.compact = some p ∧
    read? (list animation) sparseAnimationsText = some animations ∧
      read? (list animation) (animationsDocument animations).compact = some animations ∧
    read? site sparseSiteText = some s ∧ read? site s.toDocument.compact = some s := by
  obtain ⟨p, readPage, changed, depthPage, numbersPage⟩ := exists_of_check
    (by decide +kernel : (read? page sparsePageText).any fun p =>
      p.toDocument.compact ≠ sparsePageText ∧ p.toDocument.depth ≤ nestingLimit ∧
        p.toDocument.Every Json.ReadsBackNumber)
  obtain ⟨animations, readAnimations, depthAnimations, numbersAnimations⟩ := exists_of_check
    (by decide +kernel : (read? (list animation) sparseAnimationsText).any fun animations =>
      (animationsDocument animations).depth ≤ nestingLimit ∧
        (animationsDocument animations).Every Json.ReadsBackNumber)
  obtain ⟨s, readSite, depthSite, numbersSite⟩ := exists_of_check
    (by decide +kernel : (read? site sparseSiteText).any fun s =>
      s.toDocument.depth ≤ nestingLimit ∧ s.toDocument.Every Json.ReadsBackNumber)
  obtain ⟨pages, timelines, sites⟩ := written_values_are_read_again
  exact ⟨p, animations, s, readPage, changed,
    pages sparsePageText p readPage depthPage numbersPage, readAnimations,
    timelines sparseAnimationsText animations readAnimations depthAnimations numbersAnimations,
    readSite, sites sparseSiteText s readSite depthSite numbersSite⟩

end Decoder

end Pagewright
