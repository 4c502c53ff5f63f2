import Pagewright.Proofs.Timeline.Order

/-! Sequences of calls on a timeline, and which of them keep every track sorted. -/

namespace Pagewright

namespace Timeline

variable {t : Timeline}

instance (t : Timeline) : Decidable t.IsSorted :=
  inferInstanceAs (Decidable (∀ a ∈ t.animations, ∀ track ∈ a.tracks,
    track.keyframes.Pairwise fun a b => a.time.precedes b.time))

/-- The timelines that edits start from: without animations, or of existing ones. -/
inductive Initial : Timeline → Prop
  | empty : Initial empty
  | ofAnimations (animations : List Animation) : Initial (ofAnimations animations)

theorem Initial.isSorted (h : Initial t) : t.IsSorted := by
  cases h with
  | empty =>
    intro a ha
    cases ha
  | ofAnimations animations =>
    intro a ha track htrack
    obtain ⟨given, _, rfl⟩ := List.mem_map.mp ha
    obtain ⟨unsorted, _, rfl⟩ := List.mem_map.mp htrack
    exact unsorted.sorted_isSorted

theorem append_isSorted {a : Animation} (h : t.IsSorted) (ha : a.IsSorted) (drawn : Nat) :
    IsSorted ⟨t.animations ++ [a], drawn⟩ := by
  intro other hm
  rcases List.mem_append.mp hm with hm | hm
  · exact h other hm
  · rw [List.mem_singleton.mp hm]
    exact ha

theorem sublist_isSorted {kept : List Animation} (h : t.IsSorted)
    (sub : kept.Sublist t.animations) : IsSorted { t with animations := kept } :=
  fun a ha => h a (sub.subset ha)

theorem changeAnimation_isSorted_iff {id : String} {f : Animation → Animation} (h : t.IsSorted) :
    (t.changeAnimation id f).IsSorted ↔ ∀ a, t.find? id = some a → (f a).IsSorted :=
  forall_mem_changeFirst h

theorem changeOwner_isSorted {trackId : String} {f : List Track → List Track} (h : t.IsSorted)
    (keeps : ∀ tracks : List Track, (∀ track ∈ tracks, track.IsSorted) →
      ∀ track ∈ f tracks, track.IsSorted) : (t.changeOwner trackId f).IsSorted := by
  refine (forall_mem_changeFirst h).mpr fun a ha => ?_
  exact keeps a.tracks (h a (List.mem_of_find?_eq_some ha))

theorem changeTrack_isSorted {id : String} {f : Track → Track} (h : t.IsSorted)
    (keeps : ∀ track : Track, track.IsSorted → (f track).IsSorted) :
    (t.changeTrack id f).IsSorted := by
  refine changeOwner_isSorted h fun tracks ht => ?_
  refine (forall_mem_changeFirst ht).mpr fun track hfound => ?_
  exact keeps track (ht track (List.mem_of_find?_eq_some hfound))

end Timeline

/-- A call of an edit on a timeline. -/
inductive TimelineCall where
  | addAnimation (elementId : String) (trigger : Trigger) (presetId : Option String)
  | updateAnimation (id : String) (name : Option String) (duration delay : Option Number)
  | removeAnimation (id : String)
  | addTrack (animationId property : String)
  | setTrackEasing (trackId easing : String)
  | removeTrack (trackId : String)
  | addKeyframe (trackId : String) (time : Number) (properties : Dict Scalar)
  | updateKeyframe (trackId id : String) (time : Option Number)
      (properties : List (String × Scalar))
  | removeKeyframe (trackId id : String)
  | removeForElement (elementId : String)

namespace TimelineCall

/-- The timeline as a call leaves it, whether or not the call succeeds. -/
def run (ids : IdSupply) : TimelineCall → Timeline → Timeline
  | addAnimation elementId trigger presetId, t =>
    ((TimelineEdit.addAnimation ids elementId trigger presetId).on t).2
  | updateAnimation id name duration delay, t =>
    ((TimelineEdit.updateAnimation id name duration delay).on t).2
  | removeAnimation id, t => ((TimelineEdit.removeAnimation id).on t).2
  | addTrack animationId property, t => ((TimelineEdit.addTrack ids animationId property).on t).2
  | setTrackEasing trackId easing, t => ((TimelineEdit.setTrackEasing trackId easing).on t).2
  | removeTrack trackId, t => ((TimelineEdit.removeTrack trackId).on t).2
  | addKeyframe trackId time properties, t =>
    ((TimelineEdit.addKeyframe ids trackId time properties).on t).2
  | updateKeyframe trackId id time properties, t =>
    ((TimelineEdit.updateKeyframe trackId id time properties).on t).2
  | removeKeyframe trackId id, t => ((TimelineEdit.removeKeyframe trackId id).on t).2
  | removeForElement elementId, t => ((TimelineEdit.removeForElement elementId).on t).2

/-- The call adds a track to an animation whose duration has the sign bit set, so that the end of
the track comes before its start. -/
def RampsBackward : TimelineCall → Timeline → Prop
  | addTrack animationId _, t => ∃ a, t.find? animationId = some a ∧ a.duration.isNegative
  | _, _ => False

variable {ids : IdSupply} {t : Timeline}

private theorem addAnimation_isSorted (elementId : String) (trigger : Trigger)
    (presetId : Option String) (h : t.IsSorted) :
    ((addAnimation elementId trigger presetId).run ids t).IsSorted := by
  rw [run, TimelineEdit.addAnimation_on]
  cases presetId with
  | none =>
    refine Timeline.append_isSorted h ?_ _
    intro track htrack
    cases htrack
  | some presetId =>
    dsimp only
    cases hp : Preset.find? presetId with
    | none => exact h
    | some preset =>
      refine Timeline.append_isSorted h ?_ _
      intro track htrack
      obtain ⟨form, hform, start, rfl⟩ := PresetTrack.mem_instantiateAll htrack
      rw [PresetTrack.instantiate_isSorted_iff]
      exact Preset.samples_ascend preset (List.mem_of_find?_eq_some hp) form hform

private theorem addTrack_isSorted_iff (animationId property : String) (h : t.IsSorted) :
    ((addTrack animationId property).run ids t).IsSorted ↔
      ¬ (addTrack animationId property).RampsBackward t := by
  rw [run, TimelineEdit.addTrack_on, RampsBackward]
  cases ha : t.find? animationId with
  | none => simpa using h
  | some a =>
    -- The new track is the only one that can be out of order.
    have owned : ∀ track ∈ a.tracks, track.IsSorted := h a (List.mem_of_find?_eq_some ha)
    have added : (TimelineEdit.startingTrack ids t a property).IsSorted ↔
        ¬ a.duration.isNegative := PresetTrack.rampTrack_isSorted_iff ..
    refine (Timeline.changeAnimation_isSorted_iff h).trans ?_
    constructor
    · rintro sorted ⟨b, hb, negative⟩
      obtain rfl : a = b := Option.some.inj hb
      have last := sorted a ha (TimelineEdit.startingTrack ids t a property) (by simp)
      exact added.mp last negative
    · intro forward b hb track htrack
      obtain rfl : a = b := Option.some.inj (ha.symm.trans hb)
      rcases List.mem_append.mp htrack with htrack | htrack
      · exact owned track htrack
      · rw [List.mem_singleton.mp htrack]
        exact added.mpr fun negative => forward ⟨a, rfl, negative⟩

/-- On a sorted timeline every call leaves tracks sorted, except one that ramps backward. -/
theorem run_isSorted_iff (call : TimelineCall) (t : Timeline) (h : t.IsSorted) :
    (call.run ids t).IsSorted ↔ ¬ call.RampsBackward t := by
  cases call with
  | addTrack animationId property => exact addTrack_isSorted_iff animationId property h
  | addAnimation elementId trigger presetId =>
    exact iff_of_true (addAnimation_isSorted elementId trigger presetId h) not_false
  | updateAnimation id name duration delay =>
    refine iff_of_true ?_ not_false
    rw [run, TimelineEdit.updateAnimation_on]
    cases t.find? id with
    | none => exact h
    | some _ =>
      refine (Timeline.changeAnimation_isSorted_iff h).mpr fun a ha => ?_
      exact h a (List.mem_of_find?_eq_some ha)
  | removeAnimation id =>
    refine iff_of_true ?_ not_false
    rw [run, TimelineEdit.removeAnimation_on]
    cases t.find? id with
    | none => exact h
    | some _ => exact Timeline.sublist_isSorted h List.eraseP_sublist
  | setTrackEasing trackId easing =>
    refine iff_of_true ?_ not_false
    rw [run, TimelineEdit.setTrackEasing_on]
    cases t.findTrack? trackId with
    | none => exact h
    | some _ => exact Timeline.changeTrack_isSorted h fun _ sorted => sorted
  | removeTrack trackId =>
    refine iff_of_true ?_ not_false
    rw [run, TimelineEdit.removeTrack_on]
    cases t.findTrack? trackId with
    | none => exact h
    | some _ =>
      refine Timeline.changeOwner_isSorted h fun tracks sorted track htrack => ?_
      exact sorted track (List.eraseP_subset htrack)
  | addKeyframe trackId time properties =>
    refine iff_of_true ?_ not_false
    rw [run, TimelineEdit.addKeyframe_on]
    cases t.findTrack? trackId with
    | none => exact h
    | some _ =>
      exact Timeline.changeTrack_isSorted h fun track _ => track.addKeyframe_isSorted _
  | updateKeyframe trackId id time properties =>
    refine iff_of_true ?_ not_false
    rw [run, TimelineEdit.updateKeyframe_on]
    cases TimelineEdit.lookUpKeyframe t trackId id with
    | error _ => exact h
    | ok _ =>
      refine Timeline.changeTrack_isSorted h ?_
      exact fun _ => Track.updateKeyframe_isSorted id time properties
  | removeKeyframe trackId id =>
    refine iff_of_true ?_ not_false
    rw [run, TimelineEdit.removeKeyframe_on]
    cases TimelineEdit.lookUpKeyframe t trackId id with
    | error _ => exact h
    | ok _ => exact Timeline.changeTrack_isSorted h fun _ => Track.removeKeyframe_isSorted id
  | removeForElement elementId =>
    refine iff_of_true ?_ not_false
    rw [run, TimelineEdit.removeForElement_on]
    exact Timeline.sublist_isSorted h List.filter_sublist

/-- However a timeline starts and whatever calls follow, every track is sorted after every call
exactly when none of the calls adds a track to an animation of negative duration. Times of
keyframes may be any numbers at all. -/
theorem keyframes_stay_sorted_iff (ids : IdSupply) {start : Timeline} (initial : start.Initial)
    (calls : List TimelineCall) :
    (∀ after ∈ Edit.trace (run ids) start calls, after.IsSorted) ↔
      Edit.EachCall (run ids) (fun call t => ¬ call.RampsBackward t) start calls :=
  Edit.trace_invariant_iff run_isSorted_iff initial.isSorted

/-- Ids that count what is drawn. -/
private def numbered : IdSupply := fun n => "#" ++ toString n

/-- An animation from nothing, its duration changed, and then a track of it. -/
private def callsWithDuration (duration : Number) : List TimelineCall :=
  [.addAnimation "hero" .entry none, .updateAnimation "#1" none (some duration) none,
    .addTrack "#1" "opacity"]

theorem keyframes_stay_sorted_over_one_second :
    Timeline.empty.Initial ∧
      ∀ after ∈ Edit.trace (run numbered) .empty (callsWithDuration 1000), after.IsSorted := by
  have lasting : ∀ after ∈ Edit.trace (run numbered) .empty (callsWithDuration 1000),
      ∀ a ∈ after.animations, ¬ a.duration.isNegative := by decide
  refine ⟨.empty, (keyframes_stay_sorted_iff numbered .empty _).mpr ?_⟩
  refine ⟨not_false, not_false, ?_, trivial⟩
  rintro ⟨a, ha, negative⟩
  refine lasting _ ?_ a (List.mem_of_find?_eq_some ha) negative
  exact List.mem_cons_of_mem _ List.mem_cons_self

/-- The track of an animation that lasts minus one millisecond ends before it starts. -/
theorem keyframes_disordered_by_negative_duration :
    let minusOne : Number := ⟨0xBFF0000000000000⟩
    let documents := Edit.trace (run numbered) .empty (callsWithDuration minusOne)
    (documents.map fun t => t.animations.flatMap fun a =>
      a.tracks.map fun track => track.keyframes.map Keyframe.time) = [[], [], [[0, minusOne]]] ∧
    ¬ ∀ after ∈ documents, after.IsSorted := by
  decide

end TimelineCall

end Pagewright
