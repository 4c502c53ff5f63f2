import Pagewright.Document.Animation
import Pagewright.Proofs.Document.Decoding
import Pagewright.Proofs.Forest.Recursion

/-! Animations and elements are decoded as what has been written. -/

namespace Pagewright

namespace Decoder

theorem keyframe_restores (k : Keyframe) : Restores keyframe Keyframe.toDocument k := by
  intro limit hdepth
  obtain ⟨inner, rfl, hmembers⟩ := Json.depth_object_le.mp hdepth
  have slots : slots? keyframeFields k.toDocument =
      some [some (.string k.id), some (.number k.time), some (scalarsDocument k.properties)] := by
    rfl
  have properties := scalars_restores k.properties inner
    (hmembers ("properties", scalarsDocument k.properties) (by simp))
  rw [keyframe, slots]
  simp only [required, optional, string, number, properties, Option.bind_some]
  rfl

theorem track_restores (t : Track) : Restores track Track.toDocument t := by
  intro limit hdepth
  obtain ⟨inner, rfl, hmembers⟩ := Json.depth_object_le.mp hdepth
  have slots : slots? trackFields t.toDocument =
      some [some (.string t.id), some (.string t.elementId), some (.string t.property),
        some (.array (t.keyframes.map Keyframe.toDocument)), some (.string t.easing)] := by
    rfl
  have keyframes := list_restores (fun k _ => keyframe_restores k) inner
    (hmembers ("keyframes", .array (t.keyframes.map Keyframe.toDocument)) (by simp))
  rw [track, slots]
  simp only [required, optional, string, keyframes, Option.bind_some]
  rfl

theorem animation_restores (a : Animation) : Restores animation Animation.toDocument a := by
  intro limit hdepth
  obtain ⟨inner, rfl, hmembers⟩ := Json.depth_object_le.mp hdepth
  have slots : slots? animationFields a.toDocument =
      some [some (.string a.id), some (.string a.elementId), some (.string a.name),
        some (.string a.trigger.name), some (.array (a.tracks.map Track.toDocument)),
        some (.number a.duration), some (.number a.delay)] := by
    rfl
  have trigger : named Trigger.all Trigger.name inner (.string a.trigger.name) =
      some a.trigger := by
    cases a.trigger <;> rfl
  have tracks := list_restores (fun t _ => track_restores t) inner
    (hmembers ("tracks", .array (a.tracks.map Track.toDocument)) (by simp))
  rw [animation, slots]
  simp only [required, optional, string, number, trigger, tracks, Option.bind_some]
  rfl

end Decoder

theorem Forest.toDocuments_eq (forest : Forest) :
    Forest.toDocuments forest = forest.map Element.toDocument := by
  induction forest with
  | nil => rfl
  | cons e rest ih => rw [Forest.toDocuments, ih, List.map_cons]

theorem Element.toDocument_eq (e : Element) : e.toDocument =
    .object ([("id", .string e.id), ("type", .string e.kind.name)] ++
      textMember "content" e.content ++ textMember "src" e.src ++ textMember "alt" e.alt ++
      [("styles", scalarsDocument e.styles)] ++
      (if e.props.isEmpty then [] else [("props", scalarsDocument e.props)]) ++
      [("children", .array (e.children.map Element.toDocument)),
        ("parentId", textDocument e.parentId)]) := by
  cases e
  rw [Element.toDocument, Forest.toDocuments_eq]

namespace Decoder

/-- Only an object with every field of an element, present or absent, is read as one. -/
theorem slots_of_element {limit : Nat} {j : Json} {e : Element}
    (read : element (limit + 1) j = some e) :
    ∃ id kind content src alt styles props children parentId,
      slots? elementFields j =
        some [id, kind, content, src, alt, styles, props, children, parentId] := by
  rw [element] at read
  split at read
  · next slots => exact ⟨_, _, _, _, _, _, _, _, _, slots⟩
  · cases read

/-- An element is decoded field by field, its children as a list of elements. -/
theorem element_of_slots {j : Json}
    {id kind content src alt styles props children parentId : Option Json}
    (slots : slots? elementFields j =
      some [id, kind, content, src, alt, styles, props, children, parentId]) (limit : Nat) :
    element (limit + 1) j = do
      let id ← required string limit id
      let kind ← required (named ElementKind.all ElementKind.name) limit kind
      let content ← optional none (nullable string) limit content
      let src ← optional none (nullable string) limit src
      let alt ← optional none (nullable string) limit alt
      let styles ← optional .empty scalars limit styles
      let props ← optional .empty scalars limit props
      let children ← optional [] (list element) limit children
      let parentId ← optional none (nullable string) limit parentId
      return ⟨id, kind, content, src, alt, styles, props, children, parentId⟩ := by
  rw [element, slots]
  dsimp only
  iterate 7 refine congrArg (Option.bind _) (funext fun _ => ?_)
  cases children with
  | none => rfl
  | some j => cases limit <;> cases j <;> rfl

private theorem slots_element (e : Element) : slots? elementFields e.toDocument =
    some [some (.string e.id), some (.string e.kind.name), e.content.map .string,
      e.src.map .string, e.alt.map .string, some (scalarsDocument e.styles),
      if e.props.isEmpty then none else some (scalarsDocument e.props),
      some (.array (e.children.map Element.toDocument)), some (textDocument e.parentId)] := by
  rw [Element.toDocument_eq]
  cases e.content <;> cases e.src <;> cases e.alt <;> split <;> rfl

theorem optional_some {α : Type} (default : α) (decode : Decoder α) (limit : Nat)
    (j : Json) : optional default decode limit (some j) = decode limit j := rfl

private theorem optional_text (limit : Nat) (s : Option String) :
    optional none (nullable string) limit (s.map .string) = some s := by
  cases s <;> rfl

private theorem nullable_textDocument (limit : Nat) (s : Option String) :
    nullable string limit (textDocument s) = some s := by
  cases s <;> rfl

/-- Props are left out when there are none. -/
private theorem optional_props {limit : Nat} {props : Dict Scalar}
    (h : props.isEmpty = false → (scalarsDocument props).depth ≤ limit) :
    optional .empty scalars limit
      (if props.isEmpty then none else some (scalarsDocument props)) = some props := by
  cases hempty : props.isEmpty with
  | true => exact congrArg some (Dict.eq_of_entries (List.isEmpty_iff.mp hempty).symm)
  | false => exact scalars_restores props limit (h hempty)

private theorem element_restores_of {e : Element}
    (below : ∀ child ∈ e.children, Restores element Element.toDocument child) :
    Restores element Element.toDocument e := by
  intro limit hdepth
  have slots := slots_element e
  rw [Element.toDocument_eq] at hdepth slots ⊢
  obtain ⟨inner, rfl, hmembers⟩ := Json.depth_object_le.mp hdepth
  have kind : named ElementKind.all ElementKind.name inner (.string e.kind.name) = some e.kind := by
    cases e.kind <;> rfl
  have styles := scalars_restores e.styles inner
    (hmembers ("styles", scalarsDocument e.styles) (by simp))
  have props := optional_props fun hempty =>
    hmembers ("props", scalarsDocument e.props) (by simp [hempty])
  have children := list_restores below inner
    (hmembers ("children", .array (e.children.map Element.toDocument)) (by simp))
  rw [element_of_slots slots]
  simp only [required, string, kind, optional_text, optional_some, styles, props, children,
    nullable_textDocument, Option.bind_some]
  cases e
  rfl

theorem elements_restore (forest : Forest) :
    ∀ e ∈ forest, Restores element Element.toDocument e := by
  induction forest using Forest.induction with
  | nil => nofun
  | cons e rest below beside => exact List.forall_mem_cons.mpr ⟨element_restores_of below, beside⟩

end Decoder

end Pagewright
