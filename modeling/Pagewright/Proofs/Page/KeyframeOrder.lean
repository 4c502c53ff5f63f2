import Pagewright.Animation.Timeline
import Pagewright.Proofs.Markup.Lines
import Pagewright.Proofs.Page.Sections
import Pagewright.Proofs.Timeline.Order

/-!
What the order of keyframes in a document means for the source of a page with motion props. Putting
the keyframes of all animations in order leaves the source as it is exactly when it leaves the
states of the animations that are visible in the page.
-/

namespace Pagewright

theorem Track.sorted_eq_self {t : Track} (h : t.IsSorted) : t.sorted = t := by
  have hsort : Keyframe.sort t.keyframes = t.keyframes := List.mergeSort_of_pairwise h
  rw [sorted, hsort]

namespace Animation

theorem sorted_eq_self {a : Animation} (h : a.IsSorted) : a.sorted = a := by
  have hsort : a.tracks.map Track.sorted = a.tracks := by
    rw [List.map_congr_left fun t ht => Track.sorted_eq_self (h t ht), List.map_id']
  rw [sorted, hsort]

/-- The states of an animation are those that it has with its keyframes in order of time. -/
def KeepsStates (a : Animation) : Prop :=
  a.sorted.motionProps.variants.toJson.compact = a.motionProps.variants.toJson.compact

private theorem lastEasing?_sorted (a : Animation) : a.sorted.lastEasing? = a.lastEasing? := by
  have heasing : Track.easing ∘ Track.sorted = Track.easing := rfl
  simp only [lastEasing?, sorted, List.filter_map, List.getLast?_map, Option.map_map, heasing]
  rfl

/-- Putting keyframes in order can change nothing but the states. -/
theorem motionAttributes_sorted {a : Animation} (h : a.KeepsStates) :
    a.sorted.motionProps.attributes = a.motionProps.attributes := by
  have htransition : a.sorted.motionProps.transitionJson = a.motionProps.transitionJson := by
    have hease : a.sorted.motionProps.ease = a.motionProps.ease := a.lastEasing?_sorted
    simp only [MotionProps.transitionJson, hease]
    rfl
  unfold MotionProps.attributes
  rw [states_motionProps, states_motionProps, htransition, h]
  rfl

end Animation

theorem shownAnimation?_sorted (animations : List Animation) (id : String) :
    shownAnimation? (animations.map Animation.sorted) id =
      (shownAnimation? animations id).map Animation.sorted := by
  rw [shownAnimation?, List.filter_map, List.getLast?_map]
  rfl

namespace Element

variable {e : Element} {a b : Animation} {animations : List Animation}

private theorem startText_image (himage : e.kind = .image) (text text' : String) :
    e.startText (some (.motionProps text)) = e.startText (some (.motionProps text')) := by
  simp [startText, tag, attributes, classAttribute, bindingAttributes, motionAttributes?, himage]

private theorem startText_motion_iff (hkind : e.kind ≠ .image) :
    e.startText (some (a.sorted.binding .motion)) = e.startText (some (a.binding .motion)) ↔
      a.KeepsStates := by
  have hvalues (a : Animation) : GivesValues "variants"
      (joinWith " " (e.attributes (some (a.binding .motion)))).toList
      [a.motionProps.variants.toJson.compact] := by
    have hplain : "variants" ∉ plainNames := by decide
    have hbound : e.bindingAttributes (some (a.binding .motion)) = [a.motionProps.attributes] := by
      simp [bindingAttributes, motionAttributes?, Animation.binding, hkind]
    refine attributes_giveValues hplain e (some (a.binding .motion)) ?_
    rw [hbound]
    exact .singleton (motionAttributes_giveValues (by decide) a)
  have htag (a : Animation) : e.tag (some (a.binding .motion)) = "motion." ++ e.kind.tag := by
    simp [tag, motionAttributes?, Animation.binding, hkind]
  constructor
  · intro h
    rw [startText, startText, htag, htag] at h
    have hattributes : (joinWith " " (e.attributes (some (a.sorted.binding .motion)))).toList =
        (joinWith " " (e.attributes (some (a.binding .motion)))).toList := by
      simpa only [String.toList_append, List.append_assoc, List.append_cancel_left_eq] using
        congrArg String.toList h
    have hsorted := hvalues a.sorted
    rw [hattributes] at hsorted
    exact List.singleton_inj.mp (hsorted.unique (hvalues a))
  · intro h
    have hbinding : a.sorted.binding .motion = a.binding .motion :=
      congrArg Binding.motionProps (Animation.motionAttributes_sorted h)
    rw [hbinding]

/-- Keyframes out of order change the start tag of an element exactly when they change the states
that the element shows. -/
theorem startText_sorted_iff (e : Element) :
    e.startText ((Bindings.ofAnimations (animations.map Animation.sorted) .motion).get? e.id) =
        e.startText ((Bindings.ofAnimations animations .motion).get? e.id) ↔
      (e.kind ≠ .image → ∀ a ∈ shownAnimation? animations e.id, a.KeepsStates) := by
  rw [Bindings.get?_ofAnimations, Bindings.get?_ofAnimations, shownAnimation?_sorted]
  cases shownAnimation? animations e.id with
  | none => exact iff_of_true rfl fun _ => nofun
  | some a =>
    by_cases hkind : e.kind = .image
    · exact iff_of_true (startText_image hkind _ _) fun h => absurd hkind h
    · simpa [hkind] using startText_motion_iff hkind

end Element

namespace Page

variable {p : Page} {animations : List Animation} {limit : Option Nat} {source : String}

private theorem tag_sorted (animations : List Animation) (e : Element) :
    e.tag ((Bindings.ofAnimations (animations.map Animation.sorted) .motion).get? e.id) =
      e.tag ((Bindings.ofAnimations animations .motion).get? e.id) := by
  rw [Bindings.get?_ofAnimations, Bindings.get?_ofAnimations, shownAnimation?_sorted]
  cases shownAnimation? animations e.id with
  | none => rfl
  | some a => by_cases hkind : e.kind = .image <;>
      simp [Element.tag, Element.motionAttributes?, Animation.binding, hkind]

private theorem options_sorted (p : Page) (animations : List Animation) :
    p.needsClient ⟨animations.map Animation.sorted, .motion, [], []⟩ =
        p.needsClient ⟨animations, .motion, [], []⟩ ∧
      p.importLines ⟨animations.map Animation.sorted, .motion, [], []⟩ =
        p.importLines ⟨animations, .motion, [], []⟩ := by
  simp [needsClient, importLines]

private theorem draft_sorted (h : ∀ e ∈ Forest.visible p.layout, e.kind ≠ .image →
    ∀ a ∈ shownAnimation? animations e.id, a.KeepsStates) :
    p.draft ⟨animations.map Animation.sorted, .motion, [], []⟩ =
      p.draft ⟨animations, .motion, [], []⟩ := by
  obtain ⟨hclient, himports⟩ := options_sorted p animations
  have hmarkup := Forest.markup_congr (fun e _ => tag_sorted animations e) fun e hm =>
    e.startText_sorted_iff.mpr (h e hm)
  rw [draft, draft, hclient, himports, component, component, markupBlock, markupBlock, hmarkup]

/-- When a page can be generated with the keyframes of its animations in order, it comes out the
same with the keyframes as they are exactly if no element that is visible in it shows states that
depend on their order. -/
theorem source_sorted_iff
    (hsource : p.source ⟨tidyFormatter, limit⟩ ⟨animations.map Animation.sorted, .motion, [], []⟩ =
      .ok source) :
    p.source ⟨tidyFormatter, limit⟩ ⟨animations, .motion, [], []⟩ = .ok source ↔
      ∀ e ∈ Forest.visible p.layout, e.kind ≠ .image →
        ∀ a ∈ shownAnimation? animations e.id, a.KeepsStates := by
  constructor
  · intro h e hm
    obtain ⟨hclient, himports⟩ := options_sorted p animations
    have hlines := codeLines_markupBlock_eq hclient himports
      ((codeLines_source hsource).symm.trans (codeLines_source h))
    simp only [markupBlock, List.append_nil] at hlines
    have htell := Forest.linesTell (tag_sorted animations) (fun e =>
      ⟨e.isBoundBy_ofAnimations _ _, e.isBoundBy_ofAnimations _ _⟩) p.layout
    exact e.startText_sorted_iff.mp (htell.holds hlines e hm)
  · intro h
    rw [Page.source, ← draft_sorted h]
    exact hsource

end Page

end Pagewright
