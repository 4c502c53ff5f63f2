import Pagewright.Document.Site
import Pagewright.Proofs.Document.Metadata
import Pagewright.Proofs.Document.Records
import Pagewright.Proofs.Json.Values

/-! The literals that are written for a decoded value have a form as text. Those of the document it
was decoded from need not: the others stand where nothing reads them. -/

namespace Pagewright

namespace Json

/-- A literal has a value, which is in its range. -/
def IsUsable (leaf : Json) : Prop := leaf.InRange ∧ leaf ≠ .unusable

theorem every_usable_string (s : String) : (Json.string s).Every IsUsable :=
  every_leaf trivial ⟨trivial, nofun⟩

theorem every_usable_bool (b : Bool) : (Json.bool b).Every IsUsable :=
  every_leaf trivial ⟨trivial, nofun⟩

theorem every_usable_nil : (Json.array []).Every IsUsable := every_array.mpr nofun

end Json

namespace Decoder

open Json (InRange IsUsable)

variable {α : Type} {decode : Decoder α} {toDocument : α → Json}

/-- Of a document whose literals are in range, the decoder takes usable literals only. -/
def Yields (limit : Nat) (decode : Decoder α) (toDocument : α → Json) : Prop :=
  ∀ j x, j.Every InRange → decode limit j = some x → (toDocument x).Every IsUsable

variable {limit : Nat}

theorem list_yields (h : ∀ inner < limit, Yields inner decode toDocument) :
    Yields limit (list decode) (fun l => .array (l.map toDocument)) := by
  intro j l hj read
  obtain ⟨items, inner, rfl, rfl, hitems⟩ := exists_of_mem_list read
  refine Json.every_array.mpr (List.forall_mem_map.mpr fun x hx => ?_)
  obtain ⟨item, hitem, hdecode⟩ := hitems x hx
  exact h inner inner.lt_succ_self item x (Json.every_array.mp hj item hitem) hdecode

theorem dict_yields (h : ∀ inner < limit, Yields inner decode toDocument) :
    Yields limit (dict decode)
      (fun d => .object (d.entries.map fun (key, x) => (key, toDocument x))) := by
  intro j d hj read
  obtain ⟨members, inner, rfl, rfl, hmembers⟩ := exists_of_mem_dict read
  refine Json.every_object.mpr (List.forall_mem_map.mpr fun e he => ?_)
  obtain ⟨member, hm, hdecode⟩ := hmembers e he
  exact h inner inner.lt_succ_self member.2 e.2 (Json.every_object.mp hj member hm) hdecode

theorem number_yields (limit : Nat) : Yields limit number Json.number := by
  intro j n hj read
  cases j with
  | number m =>
    cases read
    exact Json.every_leaf trivial ⟨hj (.number n) List.mem_cons_self, nofun⟩
  | int i =>
    cases read
    obtain ⟨hleast, hbound⟩ : leastInt64 ≤ i ∧ i < wordBound := hj (.int i) List.mem_cons_self
    have finite : (Number.ofInt i).isFinite := Number.isFinite_ofInt (by
      simp only [leastInt64, wordBound] at *
      omega)
    exact Json.every_leaf trivial ⟨finite, nofun⟩
  | _ => cases read

theorem scalar_yields (limit : Nat) : Yields limit scalar Scalar.toDocument := by
  intro j s hj read
  unfold scalar at read
  split at read
  · cases read
    exact Json.every_usable_bool _
  · cases read
    exact Json.every_usable_string _
  · obtain ⟨n, hn, rfl⟩ := Option.map_eq_some_iff.mp read
    exact number_yields limit j n hj hn

theorem of_nullable_some {j : Json} {x : α}
    (h : nullable decode limit j = some (some x)) : decode limit j = some x := by
  unfold nullable at h
  split at h
  · cases h
  · obtain ⟨y, hy, h⟩ := Option.map_eq_some_iff.mp h
    cases h
    exact hy

private theorem every_usable_no_scalars : (scalarsDocument .empty).Every IsUsable :=
  Json.every_object.mpr (List.forall_mem_map.mpr nofun)

theorem scalars_yields (limit : Nat) : Yields limit scalars scalarsDocument := by
  intro j d hj read
  unfold scalars at read
  split at read
  · cases read
    exact Json.every_object.mpr nofun
  · obtain ⟨all, hall, rfl⟩ := Option.map_eq_some_iff.mp read
    obtain ⟨members, inner, rfl, rfl, hmembers⟩ := exists_of_mem_dict hall
    refine Json.every_object.mpr (List.forall_mem_map.mpr fun e he => ?_)
    obtain ⟨entry, hentry, hvalue⟩ := List.mem_filterMap.mp he
    obtain ⟨s, hs, rfl⟩ := Option.map_eq_some_iff.mp hvalue
    obtain ⟨member, hm, hdecode⟩ := hmembers entry hentry
    rw [id_eq] at hs
    rw [hs] at hdecode
    exact scalar_yields inner member.2 s (Json.every_object.mp hj member hm)
      (of_nullable_some hdecode)

theorem metaValue_yields (limit : Nat) : Yields limit metaValue MetaValue.toDocument := by
  intro j v hj read
  cases v with
  | list items =>
    exact Json.every_array.mpr (List.forall_mem_map.mpr fun s _ => Json.every_usable_string s)
  | text s => exact Json.every_usable_string s
  | bool b => exact Json.every_usable_bool b
  | number n =>
    have hscalar : scalar limit j = some (.number n) := by
      unfold metaValue at read
      split at read
      · cases read
      · cases read
      · cases read
        assumption
      · cases read
      · obtain ⟨_, _, read⟩ := Option.map_eq_some_iff.mp read
        cases read
    exact scalar_yields limit j (.number n) hj hscalar
  | other k =>
    obtain ⟨_, _, settled⟩ := of_metaValue_other read
    exact fun leaf hleaf => ⟨hj leaf (Json.mem_leaves_of_settle? settled hleaf),
      (Json.settled_of_settle? settled).every_value leaf hleaf⟩

theorem slots_inRange {names : List String} {j : Json} {slots : List (Option Json)}
    (hj : j.Every InRange) (h : slots? names j = some slots) :
    ∀ slot ∈ slots, ∀ value ∈ slot, value.Every InRange := by
  unfold slots? at h
  split at h
  · next items =>
    obtain ⟨_, h⟩ := Option.ite_none_right_eq_some.mp h
    cases h
    intro slot hslot value hvalue
    rcases List.mem_append.mp hslot with hslot | hslot
    · obtain ⟨item, hitem, rfl⟩ := List.mem_map.mp hslot
      cases hvalue
      exact Json.every_array.mp hj value hitem
    · cases List.eq_of_mem_replicate hslot
      cases hvalue
  · next members =>
    intro slot hslot value hvalue
    obtain ⟨name, _, hname⟩ := exists_of_mem_mapM h slot hslot
    split at hname
    · cases hname
      cases hvalue
    · next key _ hfilter =>
      cases hname
      cases hvalue
      have hm : (key, value) ∈ members.filter fun member => member.1 = name := by
        rw [hfilter]
        exact List.mem_cons_self
      exact Json.every_object.mp hj (key, value) (List.mem_filter.mp hm).1
    · cases hname
  · cases h

section Slots

variable {slot : Option Json} {x default : α}

theorem required_yields (h : Yields limit decode toDocument)
    (hslot : ∀ value ∈ slot, value.Every InRange) (read : required decode limit slot = some x) :
    (toDocument x).Every IsUsable := by
  obtain ⟨j, rfl, read⟩ := Option.bind_eq_some_iff.mp read
  exact h j x (hslot j rfl) read

theorem optional_yields (h : Yields limit decode toDocument)
    (hslot : ∀ value ∈ slot, value.Every InRange)
    (read : optional default decode limit slot = some x)
    (hdefault : (toDocument default).Every IsUsable) : (toDocument x).Every IsUsable := by
  cases slot with
  | none =>
    cases read
    exact hdefault
  | some j => exact h j x (hslot j rfl) read

end Slots

theorem keyframe_yields (limit : Nat) : Yields limit keyframe Keyframe.toDocument := by
  intro j k hj read
  unfold keyframe at read
  split at read
  · cases read
  split at read
  · next slots =>
    have values := slots_inRange hj slots
    obtain ⟨id, _, read⟩ := Option.bind_eq_some_iff.mp read
    obtain ⟨time, htime, read⟩ := Option.bind_eq_some_iff.mp read
    obtain ⟨properties, hproperties, read⟩ := Option.bind_eq_some_iff.mp read
    cases read
    have time := required_yields (number_yields _) (values _ (by simp)) htime
    have properties := optional_yields (scalars_yields _) (values _ (by simp)) hproperties
      every_usable_no_scalars
    simp [Keyframe.toDocument, Json.every_object, Json.every_usable_string, time, properties]
  · cases read

theorem track_yields (limit : Nat) : Yields limit track Track.toDocument := by
  intro j t hj read
  unfold track at read
  split at read
  · cases read
  split at read
  · next slots =>
    have values := slots_inRange hj slots
    obtain ⟨id, _, read⟩ := Option.bind_eq_some_iff.mp read
    obtain ⟨elementId, _, read⟩ := Option.bind_eq_some_iff.mp read
    obtain ⟨property, _, read⟩ := Option.bind_eq_some_iff.mp read
    obtain ⟨keyframes, hkeyframes, read⟩ := Option.bind_eq_some_iff.mp read
    obtain ⟨easing, _, read⟩ := Option.bind_eq_some_iff.mp read
    cases read
    have keyframes := optional_yields (list_yields fun inner _ => keyframe_yields inner)
      (values _ (by simp)) hkeyframes Json.every_usable_nil
    simp [Track.toDocument, Json.every_object, Json.every_usable_string, keyframes]
  · cases read

theorem animation_yields (limit : Nat) : Yields limit animation Animation.toDocument := by
  intro j a hj read
  unfold animation at read
  split at read
  · cases read
  split at read
  · next slots =>
    have values := slots_inRange hj slots
    obtain ⟨id, _, read⟩ := Option.bind_eq_some_iff.mp read
    obtain ⟨elementId, _, read⟩ := Option.bind_eq_some_iff.mp read
    obtain ⟨name, _, read⟩ := Option.bind_eq_some_iff.mp read
    obtain ⟨trigger, _, read⟩ := Option.bind_eq_some_iff.mp read
    obtain ⟨tracks, htracks, read⟩ := Option.bind_eq_some_iff.mp read
    obtain ⟨duration, hduration, read⟩ := Option.bind_eq_some_iff.mp read
    obtain ⟨delay, hdelay, read⟩ := Option.bind_eq_some_iff.mp read
    cases read
    have tracks := optional_yields (list_yields fun inner _ => track_yields inner)
      (values _ (by simp)) htracks Json.every_usable_nil
    have duration := required_yields (number_yields _) (values _ (by simp)) hduration
    have delay := optional_yields (number_yields _) (values _ (by simp)) hdelay
      (Json.every_leaf trivial ⟨Number.isFinite_ofNat (by decide), nofun⟩)
    simp [Animation.toDocument, Json.every_object, Json.every_usable_string, tracks, duration,
      delay]
  · cases read

private theorem textMember_usable (key : String) (s : Option String) :
    ∀ member ∈ textMember key s, member.2.Every IsUsable := by
  cases s with
  | none => nofun
  | some s => exact List.forall_mem_singleton.mpr (Json.every_usable_string s)

private theorem textDocument_usable (s : Option String) : (textDocument s).Every IsUsable := by
  cases s with
  | none => exact Json.every_leaf trivial ⟨trivial, nofun⟩
  | some s => exact Json.every_usable_string s

/-- The slots of an element that hold further documents. -/
theorem element_eq_some {limit : Nat} {j : Json} {e : Element}
    (read : element (limit + 1) j = some e) :
    ∃ slots, slots? elementFields j = some slots ∧
      (∃ slot ∈ slots, optional .empty scalars limit slot = some e.styles) ∧
      (∃ slot ∈ slots, optional .empty scalars limit slot = some e.props) ∧
      ∃ slot ∈ slots, optional [] (list element) limit slot = some e.children := by
  obtain ⟨id, kind, content, src, alt, styles, props, children, parentId, slots⟩ :=
    slots_of_element read
  rw [element_of_slots slots] at read
  obtain ⟨id, _, read⟩ := Option.bind_eq_some_iff.mp read
  obtain ⟨kind, _, read⟩ := Option.bind_eq_some_iff.mp read
  obtain ⟨content, _, read⟩ := Option.bind_eq_some_iff.mp read
  obtain ⟨src, _, read⟩ := Option.bind_eq_some_iff.mp read
  obtain ⟨alt, _, read⟩ := Option.bind_eq_some_iff.mp read
  obtain ⟨styles, hstyles, read⟩ := Option.bind_eq_some_iff.mp read
  obtain ⟨props, hprops, read⟩ := Option.bind_eq_some_iff.mp read
  obtain ⟨children, hchildren, read⟩ := Option.bind_eq_some_iff.mp read
  obtain ⟨parentId, _, read⟩ := Option.bind_eq_some_iff.mp read
  cases read
  exact ⟨_, slots, ⟨_, by simp, hstyles⟩, ⟨_, by simp, hprops⟩, ⟨_, by simp, hchildren⟩⟩

theorem element_yields (limit : Nat) : Yields limit element Element.toDocument := by
  induction limit using Nat.strongRecOn with
  | ind limit ih =>
    intro j e hj read
    cases limit with
    | zero => cases read
    | succ limit =>
      obtain ⟨slots, hslots, ⟨_, hs, styles⟩, ⟨_, hp, props⟩, ⟨_, hc, children⟩⟩ :=
        element_eq_some read
      have values := slots_inRange hj hslots
      have styles := optional_yields (scalars_yields _) (values _ hs) styles
        every_usable_no_scalars
      have props := optional_yields (scalars_yields _) (values _ hp) props
        every_usable_no_scalars
      have children := optional_yields
        (list_yields fun inner hinner => ih inner (hinner.trans limit.lt_succ_self))
        (values _ hc) children Json.every_usable_nil
      have props : ∀ member ∈
          (if e.props.isEmpty then [] else [("props", scalarsDocument e.props)]),
            member.2.Every IsUsable := by
        split
        · nofun
        · exact List.forall_mem_singleton.mpr props
      rw [Element.toDocument_eq, Json.every_object]
      simp only [List.forall_mem_append]
      refine ⟨⟨⟨⟨⟨⟨?_, textMember_usable _ _⟩, textMember_usable _ _⟩, textMember_usable _ _⟩,
        List.forall_mem_singleton.mpr styles⟩, props⟩, ?_⟩
      · simp [Json.every_usable_string]
      · simp [children, textDocument_usable]

private theorem metadata_usable {limit : Nat} {slot : Option Json} {metadata : Option PageMeta}
    (hslot : ∀ value ∈ slot, value.Every InRange)
    (read : optional none (nullable (dict metaValue)) limit slot = some metadata) :
    ∀ m ∈ metadata, m.toDocument.Every IsUsable := by
  cases metadata with
  | none => nofun
  | some m =>
    rintro _ ⟨⟩
    cases slot with
    | none => cases read
    | some j =>
      exact dict_yields (fun inner _ => metaValue_yields inner) j m (hslot j rfl)
        (of_nullable_some read)

/-- The slots of a page that hold further documents. -/
theorem page_eq_some {limit : Nat} {j : Json} {p : Page} (read : page limit j = some p) :
    ∃ inner slots, slots? pageFields j = some slots ∧
      (∃ slot ∈ slots, optional none (nullable (dict metaValue)) inner slot = some p.metadata) ∧
      ∃ slot ∈ slots, optional [] (list element) inner slot = some p.layout := by
  unfold page at read
  split at read
  · cases read
  split at read
  · next slots =>
    obtain ⟨id, _, read⟩ := Option.bind_eq_some_iff.mp read
    obtain ⟨name, _, read⟩ := Option.bind_eq_some_iff.mp read
    obtain ⟨slug, _, read⟩ := Option.bind_eq_some_iff.mp read
    obtain ⟨mode, _, read⟩ := Option.bind_eq_some_iff.mp read
    obtain ⟨metadata, hmetadata, read⟩ := Option.bind_eq_some_iff.mp read
    obtain ⟨layout, hlayout, read⟩ := Option.bind_eq_some_iff.mp read
    obtain ⟨isPublished, _, read⟩ := Option.bind_eq_some_iff.mp read
    cases read
    exact ⟨_, _, slots, ⟨_, by simp, hmetadata⟩, ⟨_, by simp, hlayout⟩⟩
  · cases read

theorem page_yields (limit : Nat) : Yields limit page Page.toDocument := by
  intro j p hj read
  obtain ⟨inner, slots, hslots, ⟨_, hm, metadata⟩, ⟨_, hl, layout⟩⟩ := page_eq_some read
  have values := slots_inRange hj hslots
  have metadata := metadata_usable (values _ hm) metadata
  have layout := optional_yields (list_yields fun inner _ => element_yields inner)
    (values _ hl) layout Json.every_usable_nil
  rw [← Forest.toDocuments_eq] at layout
  rw [Page.toDocument, Json.every_object]
  simp only [List.forall_mem_append]
  refine ⟨⟨?_, ?_⟩, ?_⟩
  · simp [Json.every_usable_string]
  · cases hnone : p.metadata with
    | none => nofun
    | some m => exact List.forall_mem_singleton.mpr (metadata m hnone)
  · simp [Forest.toDocument, layout, Json.every_usable_bool]

/-- The slots of a site that hold further documents. -/
theorem site_eq_some {limit : Nat} {j : Json} {s : Site} (read : site limit j = some s) :
    ∃ inner slots, slots? siteFields j = some slots ∧
      (∃ slot ∈ slots, optional [] (list page) inner slot = some s.pages) ∧
      ∃ slot ∈ slots, optional [] (list animation) inner slot = some s.animations := by
  unfold site at read
  split at read
  · cases read
  split at read
  · next slots =>
    obtain ⟨name, _, read⟩ := Option.bind_eq_some_iff.mp read
    obtain ⟨slug, _, read⟩ := Option.bind_eq_some_iff.mp read
    obtain ⟨hasAuth, _, read⟩ := Option.bind_eq_some_iff.mp read
    obtain ⟨backend, _, read⟩ := Option.bind_eq_some_iff.mp read
    obtain ⟨pages, hpages, read⟩ := Option.bind_eq_some_iff.mp read
    obtain ⟨animations, hanimations, read⟩ := Option.bind_eq_some_iff.mp read
    cases read
    exact ⟨_, _, slots, ⟨_, by simp, hpages⟩, ⟨_, by simp, hanimations⟩⟩
  · cases read

theorem site_yields (limit : Nat) : Yields limit site Site.toDocument := by
  intro j s hj read
  obtain ⟨inner, slots, hslots, ⟨_, hp, pages⟩, ⟨_, ha, animations⟩⟩ := site_eq_some read
  have values := slots_inRange hj hslots
  have pages := optional_yields (list_yields fun inner _ => page_yields inner)
    (values _ hp) pages Json.every_usable_nil
  have animations := optional_yields (list_yields fun inner _ => animation_yields inner)
    (values _ ha) animations Json.every_usable_nil
  simp [Site.toDocument, animationsDocument, Json.every_object, Json.every_usable_string,
    Json.every_usable_bool, pages, animations]

end Decoder

end Pagewright
