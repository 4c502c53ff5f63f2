import Mathlib.Data.List.Perm.Basic
import Pagewright.Proofs.Timeline.Calls
import Pagewright.Proofs.Timeline.Parts

/-! What one call does to the parts of a timeline with distinct ids: it removes what it is addressed
to with all that this owns, or changes data of what it is addressed to, or adds parts, and leaves
all others as they are. -/

namespace Pagewright

namespace TimelineCall

/-- The call is addressed to the part or to an owner of it, and removes what it is addressed to. -/
def removes : TimelineCall → TimelinePart → Bool
  | removeAnimation id, p => p.animationId = id
  | removeTrack trackId, p => p.trackId? = some trackId
  | removeKeyframe trackId id, .keyframe _ _ owner k => owner = trackId ∧ k.id = id
  | removeForElement elementId, p => p.elementId = elementId
  | _, _ => false

/-- The part with the data that the call gives it, if the call is addressed to this part. -/
def edit : TimelineCall → TimelinePart → TimelinePart
  | updateAnimation id name duration delay, .animation a =>
    .animation <| if a.id = id then
      { a with
        name := name.getD a.name
        duration := duration.getD a.duration
        delay := delay.getD a.delay }
    else a
  | setTrackEasing trackId easing, .track animationId elementId t =>
    .track animationId elementId <| if t.id = trackId then { t with easing := easing } else t
  | updateKeyframe trackId id time properties, .keyframe animationId elementId owner k =>
    .keyframe animationId elementId owner <| if owner = trackId ∧ k.id = id then
      { k with time := time.getD k.time, properties := k.properties.insertAll properties }
    else k
  | _, p => p

/-- What becomes of a part under a call. -/
def after (call : TimelineCall) (p : TimelinePart) : Option TimelinePart :=
  if call.removes p then none else some (call.edit p)

/-- The parts that the call adds, in the order in which their ids are drawn. -/
def newParts (ids : IdSupply) : TimelineCall → Timeline → List TimelinePart
  | addAnimation elementId trigger none, t =>
    (Animation.bare (t.nextId ids 0) elementId trigger).parts
  | addAnimation elementId trigger (some presetId), t =>
    match Preset.find? presetId with
    | some preset => (TimelineEdit.presetAnimation ids t elementId trigger preset).parts
    | none => []
  | addTrack animationId property, t =>
    match t.find? animationId with
    | some a => (TimelineEdit.startingTrack ids t a property).parts a.id a.elementId
    | none => []
  | addKeyframe trackId time properties, t =>
    match t.ownerOf? trackId with
    | some a => [.keyframe a.id a.elementId trackId ⟨t.nextId ids 0, time, properties⟩]
    | none => []
  | _, _ => []

variable {ids : IdSupply} {call : TimelineCall} {t : Timeline} {a : Animation} {track : Track}

section Replacement

variable {α : Type} {g : α → List TimelinePart} {before after middle : List α} {x : α}
  {new : List TimelinePart}

private theorem filterMap_eq_self {k : TimelinePart → Option TimelinePart}
    {parts : List TimelinePart} (h : ∀ p ∈ parts, k p = some p) : parts.filterMap k = parts :=
  (List.filterMap_congr h).trans List.filterMap_some

/-- Distinct ids of the parts of all entries set those of one entry apart from the others. -/
private theorem id_ne_of_nodup (h : (((before ++ x :: after).flatMap g).map TimelinePart.id).Nodup)
    {y : α} (hy : y ∈ before ++ after) {p q : TimelinePart} (hp : p ∈ g y) (hq : q ∈ g x) :
    p.id ≠ q.id := by
  have front : ((before ++ x :: after).flatMap g).Perm (g x ++ (before ++ after).flatMap g) :=
    List.perm_middle.flatMap_right g
  rw [(front.map TimelinePart.id).nodup_iff, List.map_append, List.nodup_append] at h
  have hp : p ∈ (before ++ after).flatMap g := List.mem_flatMap.mpr ⟨y, hy, hp⟩
  exact (h.2.2 q.id (List.mem_map_of_mem hq) p.id (List.mem_map_of_mem hp)).symm

/-- Replacing an entry, where nothing happens to the parts of the others. -/
private theorem replace_perm {k : TimelinePart → Option TimelinePart}
    (outside : ∀ y ∈ before ++ after, ∀ p ∈ g y, k p = some p)
    (inside : (middle.flatMap g).Perm ((g x).filterMap k ++ new)) :
    ((before ++ middle ++ after).flatMap g).Perm
      (((before ++ x :: after).flatMap g).filterMap k ++ new) := by
  have kept : ∀ others ⊆ before ++ after, (others.flatMap g).filterMap k = others.flatMap g := by
    refine fun others sub => filterMap_eq_self fun p hp => ?_
    obtain ⟨y, hy, hp⟩ := List.mem_flatMap.mp hp
    exact outside y (sub hy) p hp
  simp only [List.flatMap_append, List.flatMap_cons, List.filterMap_append, List.append_assoc,
    kept before (List.subset_append_left before after),
    kept after (List.subset_append_right before after)]
  refine List.Perm.append_left _ ((inside.append_right _).trans ?_)
  rw [List.append_assoc]
  exact List.perm_append_comm.append_left _

end Replacement

/-- A call that is addressed to one animation changes the parts of this one. -/
private theorem replaceAnimation_perm {new : List TimelinePart}
    {before after middle : List Animation} (h : t.IdsDistinct)
    (ht : t.animations = before ++ a :: after)
    (outside : ∀ p, p.animationId ≠ a.id → call.after p = some p)
    (inside : (middle.flatMap Animation.parts).Perm (a.parts.filterMap call.after ++ new))
    (drawn : Nat) : (Timeline.parts ⟨before ++ middle ++ after, drawn⟩).Perm
      (t.parts.filterMap call.after ++ new) := by
  rw [Timeline.IdsDistinct, Timeline.parts, ht] at h
  rw [Timeline.parts, Timeline.parts, ht]
  refine replace_perm (fun other hother p hp => outside p ?_) inside
  rw [Animation.animationId_of_mem hp]
  exact id_ne_of_nodup h hother List.mem_cons_self List.mem_cons_self

/-- A call that is addressed to one track changes the parts of this one. -/
private theorem replaceTrack_perm {new : List TimelinePart} {before after middle : List Track}
    (h : (a.parts.map TimelinePart.id).Nodup) (ha : a.tracks = before ++ track :: after)
    (outside : ∀ p, p.trackId? ≠ some track.id → call.after p = some p)
    (inside : (middle.flatMap (Track.parts a.id a.elementId)).Perm
      ((track.parts a.id a.elementId).filterMap call.after ++ new)) :
    (Animation.parts { a with tracks := before ++ middle ++ after }).Perm
      (a.parts.filterMap call.after ++ new) := by
  rw [Animation.parts, ha, List.map_cons, List.nodup_cons] at h
  have kept : call.after (.animation a.own) = some (.animation a.own) :=
    outside _ (Option.some_ne_none _).symm
  rw [Animation.parts, Animation.parts, ha, List.filterMap_cons, kept]
  refine List.Perm.cons _ (replace_perm (fun other hother p hp => outside p ?_) inside)
  rw [Track.trackId?_of_mem hp, ne_eq, Option.some.injEq]
  exact id_ne_of_nodup h.2 hother List.mem_cons_self List.mem_cons_self

/-- A call that is addressed to one keyframe changes this one; the order of keyframes is free. -/
private theorem replaceKeyframe_perm {animationId elementId : String} {k : Keyframe}
    {before after middle changed : List Keyframe}
    (h : (track.id :: track.keyframes.map Keyframe.id).Nodup)
    (hkeyframes : track.keyframes = before ++ k :: after)
    (hchanged : changed.Perm (before ++ middle ++ after))
    (outside : ∀ p, p.id ≠ k.id → call.after p = some p)
    (inside : middle.map (TimelinePart.keyframe animationId elementId track.id) =
      [TimelinePart.keyframe animationId elementId track.id k].filterMap call.after) :
    (Track.parts animationId elementId { track with keyframes := changed }).Perm
      ((track.parts animationId elementId).filterMap call.after) := by
  obtain ⟨apart, distinct⟩ := List.nodup_cons.mp h
  have differs : track.id ≠ k.id := by
    intro same
    rw [hkeyframes, same] at apart
    simp at apart
  have kept : call.after (.track animationId elementId track.own) =
      some (.track animationId elementId track.own) := outside _ differs
  rw [Track.parts, Track.parts, List.filterMap_cons, kept]
  refine List.Perm.cons _ ((hchanged.map _).trans ?_)
  have ids : ((before ++ k :: after).flatMap fun k =>
      [TimelinePart.keyframe animationId elementId track.id k]).map TimelinePart.id =
        track.keyframes.map Keyframe.id := by
    rw [← List.map_eq_flatMap, List.map_map, hkeyframes]
    rfl
  rw [hkeyframes, List.map_eq_flatMap, List.map_eq_flatMap]
  rw [← List.append_nil (List.filterMap _ _)]
  refine replace_perm (fun other hother p hp => outside p ?_) ?_
  · exact id_ne_of_nodup (ids ▸ distinct) hother hp List.mem_cons_self
  · rw [← List.map_eq_flatMap, inside, List.append_nil]

/-- Changing a track by its id changes the parts of this track of the animation that owns it. -/
private theorem changeOwner_perm {trackId : String} {f : List Track → List Track}
    (middle : List Track) (new : Animation → List TimelinePart) (h : t.IdsDistinct)
    (found : t.findTrack? trackId = some track)
    (changed : ∀ tracks : List Track, (tracks.find? fun track => track.id = trackId) = some track →
      ∃ before after, tracks = before ++ track :: after ∧ f tracks = before ++ middle ++ after)
    (outside : ∀ p, p.trackId? ≠ some trackId → call.after p = some p)
    (inside : ∀ a ∈ t.animations, track ∈ a.tracks →
      (middle.flatMap (Track.parts a.id a.elementId)).Perm
        ((track.parts a.id a.elementId).filterMap call.after ++ new a)) :
    ∃ a, t.ownerOf? trackId = some a ∧
      (t.changeOwner trackId f).parts.Perm (t.parts.filterMap call.after ++ new a) := by
  obtain ⟨a, ha, htrack⟩ := Timeline.exists_ownerOf?_of_findTrack? found
  have hmem := List.mem_of_find?_eq_some ha
  have howned := List.mem_of_find?_eq_some htrack
  obtain rfl : track.id = trackId := by simpa using List.find?_some htrack
  obtain ⟨before, after, ht, replaced, _⟩ := exists_split_of_find? ha
  obtain ⟨first, last, hown, hchanged⟩ := changed a.tracks htrack
  refine ⟨a, ha, ?_⟩
  rw [Timeline.parts, Timeline.changeOwner, replaced, hchanged, Timeline.parts, ht]
  have hnodup := h
  rw [Timeline.IdsDistinct, Timeline.parts, ht] at hnodup
  refine replace_perm (fun other hother p hp => outside p fun hpid => ?_) ?_
  · obtain ⟨owner, howner, hid⟩ := Animation.exists_track_of_mem hp hpid
    have own : TimelinePart.track a.id a.elementId track.own ∈ a.parts :=
      Animation.mem_parts.mpr (.inr ⟨track, howned, List.mem_cons_self⟩)
    exact id_ne_of_nodup hnodup hother howner own hid
  · rw [List.flatMap_singleton]
    exact replaceTrack_perm (h.of_animation hmem) hown outside (inside a hmem howned)

private theorem changeTrack_perm {trackId : String} (f : Track → Track)
    (new : Animation → List TimelinePart) (h : t.IdsDistinct)
    (found : t.findTrack? trackId = some track)
    (outside : ∀ p, p.trackId? ≠ some trackId → call.after p = some p)
    (inside : ∀ a ∈ t.animations, track ∈ a.tracks → ((f track).parts a.id a.elementId).Perm
      ((track.parts a.id a.elementId).filterMap call.after ++ new a)) :
    ∃ a, t.ownerOf? trackId = some a ∧
      (t.changeTrack trackId f).parts.Perm (t.parts.filterMap call.after ++ new a) := by
  refine changeOwner_perm [f track] new h found (fun tracks htracks => ?_) outside ?_
  · obtain ⟨before, after, ht, changed, _⟩ := exists_split_of_find? htracks
    exact ⟨before, after, ht, changed f⟩
  · intro a ha htrack
    rw [List.flatMap_singleton]
    exact inside a ha htrack

/-- What a call does to the parts of a timeline. -/
private def Steps (ids : IdSupply) (t : Timeline) (call : TimelineCall) : Prop :=
  (call.run ids t).parts.Perm (t.parts.filterMap call.after ++ call.newParts ids t)

private theorem steps_of_unchanged (same : call.run ids t = t) (new : call.newParts ids t = [])
    (kept : ∀ p ∈ t.parts, call.after p = some p) : Steps ids t call := by
  rw [Steps, same, new, filterMap_eq_self kept, List.append_nil]

private theorem steps_of_no_new (new : call.newParts ids t = [])
    (perm : (call.run ids t).parts.Perm (t.parts.filterMap call.after ++ [])) :
    Steps ids t call := by
  rwa [Steps, new]

private theorem addAnimation_steps (elementId : String) (trigger : Trigger)
    (presetId : Option String) : Steps ids t (addAnimation elementId trigger presetId) := by
  have kept : ∀ p ∈ t.parts, (addAnimation elementId trigger presetId).after p = some p :=
    fun _ _ => rfl
  have added (a : Animation) (drawn : Nat) :
      Timeline.parts ⟨t.animations ++ [a], drawn⟩ = t.parts ++ a.parts := by
    simp [Timeline.parts]
  rw [Steps, run, TimelineEdit.addAnimation_on, filterMap_eq_self kept]
  cases presetId with
  | none => rw [added, newParts]
  | some presetId =>
    dsimp only
    rw [newParts]
    cases Preset.find? presetId with
    | none => rw [List.append_nil]
    | some preset => rw [added]

private theorem updateAnimation_steps (h : t.IdsDistinct) (id : String) (name : Option String)
    (duration delay : Option Number) : Steps ids t (updateAnimation id name duration delay) := by
  have outside (p : TimelinePart) (hp : p.animationId ≠ id) :
      (updateAnimation id name duration delay).after p = some p := by
    cases p with
    | animation a =>
      have hp : a.id ≠ id := hp
      simp [after, removes, edit, hp]
    | track _ _ _ => rfl
    | keyframe _ _ _ _ => rfl
  cases ha : t.find? id with
  | none =>
    refine steps_of_unchanged ?_ rfl fun p hp => ?_
    · rw [run, TimelineEdit.updateAnimation_on, ha]
    · exact outside p (Timeline.animationId_ne_of_find?_eq_none ha hp)
  | some a =>
    obtain rfl : a.id = id := by simpa using List.find?_some ha
    obtain ⟨before, after, ht, changed, _⟩ := exists_split_of_find? ha
    refine steps_of_no_new rfl ?_
    rw [run, TimelineEdit.updateAnimation_on, ha]
    dsimp only
    rw [Timeline.changeAnimation, changed]
    refine replaceAnimation_perm h ht outside (List.Perm.of_eq ?_) _
    have tracks : (a.tracks.flatMap (Track.parts a.id a.elementId)).filterMap
        (updateAnimation a.id name duration delay).after =
          a.tracks.flatMap (Track.parts a.id a.elementId) := by
      refine filterMap_eq_self fun p hp => ?_
      obtain ⟨track, _, hp⟩ := List.mem_flatMap.mp hp
      rcases Track.mem_parts.mp hp with rfl | ⟨k, _, rfl⟩ <;> rfl
    have own : (updateAnimation a.id name duration delay).after (.animation a.own) =
        some (.animation { a.own with
          name := name.getD a.name
          duration := duration.getD a.duration
          delay := delay.getD a.delay }) := by
      simp [TimelineCall.after, removes, edit, Animation.own]
    rw [List.flatMap_singleton, Animation.parts, Animation.parts, List.filterMap_cons, own, tracks,
      List.append_nil]
    rfl

private theorem removeAnimation_steps (h : t.IdsDistinct) (id : String) :
    Steps ids t (removeAnimation id) := by
  have outside (p : TimelinePart) (hp : p.animationId ≠ id) :
      (removeAnimation id).after p = some p := by
    simp [after, removes, edit, hp]
  cases ha : t.find? id with
  | none =>
    refine steps_of_unchanged ?_ rfl fun p hp => ?_
    · rw [run, TimelineEdit.removeAnimation_on, ha]
    · exact outside p (Timeline.animationId_ne_of_find?_eq_none ha hp)
  | some a =>
    obtain rfl : a.id = id := by simpa using List.find?_some ha
    obtain ⟨before, after, ht, _, erased⟩ := exists_split_of_find? ha
    refine steps_of_no_new rfl ?_
    rw [run, TimelineEdit.removeAnimation_on, ha]
    dsimp only
    rw [erased]
    refine replaceAnimation_perm h ht outside (List.Perm.of_eq ?_) _
    have gone : a.parts.filterMap (removeAnimation a.id).after = [] := by
      rw [List.filterMap_eq_nil_iff]
      intro p hp
      simp [TimelineCall.after, removes, Animation.animationId_of_mem hp]
    rw [gone]
    rfl

private theorem removeForElement_steps (elementId : String) :
    Steps ids t (removeForElement elementId) := by
  have each (a : Animation) : a.parts.filterMap (removeForElement elementId).after =
      if a.elementId = elementId then [] else a.parts := by
    split
    · next same =>
      rw [List.filterMap_eq_nil_iff]
      intro p hp
      simp [after, removes, Animation.elementId_of_mem hp, same]
    · next other =>
      refine filterMap_eq_self fun p hp => ?_
      simp [after, removes, edit, Animation.elementId_of_mem hp, other]
  refine steps_of_no_new rfl (List.Perm.of_eq ?_)
  rw [run, TimelineEdit.removeForElement_on, List.append_nil, Timeline.parts, Timeline.parts,
    List.filterMap_flatMap]
  simp only [each]
  induction t.animations with
  | nil => rfl
  | cons a rest ih =>
    by_cases same : a.elementId = elementId
    · simpa [same] using ih
    · simpa [same] using ih

private theorem addTrack_steps (h : t.IdsDistinct) (animationId property : String) :
    Steps ids t (addTrack animationId property) := by
  have kept : ∀ p, (addTrack animationId property).after p = some p := fun _ => rfl
  cases ha : t.find? animationId with
  | none =>
    refine steps_of_unchanged ?_ ?_ fun p _ => kept p
    · rw [run, TimelineEdit.addTrack_on, ha]
    · rw [newParts, ha]
  | some a =>
    obtain rfl : a.id = animationId := by simpa using List.find?_some ha
    obtain ⟨before, after, ht, changed, _⟩ := exists_split_of_find? ha
    rw [Steps, run, TimelineEdit.addTrack_on, newParts, ha]
    dsimp only
    rw [Timeline.changeAnimation, changed]
    refine replaceAnimation_perm h ht (fun p _ => kept p) (List.Perm.of_eq ?_) _
    rw [filterMap_eq_self fun p _ => kept p, List.flatMap_singleton]
    simp [Animation.parts, Animation.own]

private theorem setTrackEasing_steps (h : t.IdsDistinct) (trackId easing : String) :
    Steps ids t (setTrackEasing trackId easing) := by
  have outside (p : TimelinePart) (hp : p.trackId? ≠ some trackId) :
      (setTrackEasing trackId easing).after p = some p := by
    cases p with
    | animation _ => rfl
    | track _ _ t =>
      have hp : t.id ≠ trackId := fun same => hp (congrArg some same)
      simp [after, removes, edit, hp]
    | keyframe _ _ _ _ => rfl
  cases found : t.findTrack? trackId with
  | none =>
    refine steps_of_unchanged ?_ rfl fun p hp => ?_
    · rw [run, TimelineEdit.setTrackEasing_on, found]
    · exact outside p (Timeline.trackId?_ne_of_findTrack?_eq_none found hp)
  | some track =>
    refine steps_of_no_new rfl ?_
    rw [run, TimelineEdit.setTrackEasing_on, found]
    obtain rfl : track.id = trackId := by simpa using List.find?_some found
    have inside (animationId elementId : String) :
        (track.parts animationId elementId).filterMap (setTrackEasing track.id easing).after =
          Track.parts animationId elementId { track with easing := easing } := by
      rw [Track.parts, List.filterMap_cons, filterMap_eq_self]
      · simp [after, removes, edit, Track.own, Track.parts]
      · intro p hp
        obtain ⟨k, _, rfl⟩ := List.mem_map.mp hp
        rfl
    obtain ⟨_, _, perm⟩ := changeTrack_perm _ (fun _ => []) h found outside fun a _ _ => by
      rw [inside, List.append_nil]
    exact perm

private theorem removeTrack_steps (h : t.IdsDistinct) (trackId : String) :
    Steps ids t (removeTrack trackId) := by
  have outside (p : TimelinePart) (hp : p.trackId? ≠ some trackId) :
      (removeTrack trackId).after p = some p := by
    simp [after, removes, edit, hp]
  cases found : t.findTrack? trackId with
  | none =>
    refine steps_of_unchanged ?_ rfl fun p hp => ?_
    · rw [run, TimelineEdit.removeTrack_on, found]
    · exact outside p (Timeline.trackId?_ne_of_findTrack?_eq_none found hp)
  | some track =>
    refine steps_of_no_new rfl ?_
    rw [run, TimelineEdit.removeTrack_on, found]
    obtain rfl : track.id = trackId := by simpa using List.find?_some found
    have erased (tracks : List Track)
        (htracks : (tracks.find? fun other => other.id = track.id) = some track) :
        ∃ before after, tracks = before ++ track :: after ∧
          (tracks.eraseP fun other => other.id = track.id) = before ++ [] ++ after := by
      obtain ⟨before, after, ht, _, erased⟩ := exists_split_of_find? htracks
      exact ⟨before, after, ht, erased⟩
    have gone (animationId elementId : String) :
        (track.parts animationId elementId).filterMap (removeTrack track.id).after = [] := by
      rw [List.filterMap_eq_nil_iff]
      intro p hp
      simp [after, removes, Track.trackId?_of_mem hp]
    obtain ⟨_, _, perm⟩ :=
      changeOwner_perm [] (fun _ => []) h found erased outside fun a _ _ => by
        rw [gone, List.flatMap_nil, List.append_nil]
    exact perm

private theorem addKeyframe_steps (h : t.IdsDistinct) (trackId : String) (time : Number)
    (properties : Dict Scalar) : Steps ids t (addKeyframe trackId time properties) := by
  have kept : ∀ p, (addKeyframe trackId time properties).after p = some p := fun _ => rfl
  cases found : t.findTrack? trackId with
  | none =>
    refine steps_of_unchanged ?_ ?_ fun p _ => kept p
    · rw [run, TimelineEdit.addKeyframe_on, found]
    · rw [newParts, Timeline.ownerOf?_of_findTrack?_eq_none found]
  | some track =>
    rw [Steps, run, TimelineEdit.addKeyframe_on, found]
    obtain rfl : track.id = trackId := by simpa using List.find?_some found
    let k : Keyframe := ⟨t.nextId ids 0, time, properties⟩
    have inside (animationId elementId : String) :
        ((track.addKeyframe k).parts animationId elementId).Perm
          (track.parts animationId elementId ++ [.keyframe animationId elementId track.id k]) := by
      refine List.Perm.cons _ (((List.mergeSort_perm _ _).map _).trans ?_)
      rw [List.map_append]
      exact List.Perm.refl _
    obtain ⟨a, ha, perm⟩ := changeTrack_perm (Track.addKeyframe k)
      (fun a => [.keyframe a.id a.elementId track.id k]) h found (fun p _ => kept p) fun a _ _ => by
        rw [filterMap_eq_self fun p _ => kept p]
        exact inside a.id a.elementId
    rw [newParts, ha]
    exact perm

/-- A call that looks up a keyframe of a track and changes it in its place or moves it. -/
private theorem keyframe_steps (h : t.IdsDistinct) (trackId id : String) (f : Track → Track)
    (new : call.newParts ids t = [])
    (hrun : call.run ids t = match TimelineEdit.lookUpKeyframe t trackId id with
      | .ok _ => t.changeTrack trackId f
      | .error _ => t)
    (outside : ∀ p, (∀ animationId elementId k, p = .keyframe animationId elementId trackId k →
      k.id ≠ id) → call.after p = some p)
    (inside : ∀ track k, track.id = trackId →
      (track.keyframes.find? fun k => k.id = id) = some k →
        ∃ before after middle changed, track.keyframes = before ++ k :: after ∧
          f track = { track with keyframes := changed } ∧ changed.Perm (before ++ middle ++ after) ∧
            ∀ animationId elementId,
              middle.map (TimelinePart.keyframe animationId elementId track.id) =
                [TimelinePart.keyframe animationId elementId track.id k].filterMap call.after) :
    Steps ids t call := by
  cases hk : TimelineEdit.lookUpKeyframe t trackId id with
  | error error =>
    refine steps_of_unchanged (by rw [hrun, hk]) new fun p hp => outside p ?_
    rintro animationId elementId k rfl rfl
    obtain ⟨_, _, _, _, _, _, found⟩ := h.reaches_iff.mpr hp
    rw [found] at hk
    cases hk
  | ok k =>
    refine steps_of_no_new new ?_
    rw [hrun, hk]
    obtain ⟨track, found, within⟩ := Timeline.lookUpKeyframe_eq_ok_iff.mp hk
    obtain rfl : track.id = trackId := by simpa using List.find?_some found
    obtain rfl : k.id = id := by simpa using List.find?_some within
    obtain ⟨before, after, middle, changed, hkeyframes, hf, perm, hmiddle⟩ :=
      inside track k rfl within
    obtain ⟨_, _, perm⟩ := changeTrack_perm f (fun _ => []) h found
      (fun p hp => outside p fun _ _ _ hkeyframe =>
        absurd (congrArg TimelinePart.trackId? hkeyframe) hp)
      fun a ha htrack => by
        rw [hf, List.append_nil]
        refine replaceKeyframe_perm (h.of_track ha htrack) hkeyframes perm (fun p hp => ?_) ?_
        · refine outside p fun _ _ _ hkeyframe => ?_
          rw [hkeyframe] at hp
          exact hp
        · exact hmiddle a.id a.elementId
    exact perm

private theorem updateKeyframe_steps (h : t.IdsDistinct) (trackId id : String)
    (time : Option Number) (properties : List (String × Scalar)) :
    Steps ids t (updateKeyframe trackId id time properties) := by
  refine keyframe_steps h trackId id (Track.updateKeyframe id time properties) rfl ?_ ?_ ?_
  · rw [run, TimelineEdit.updateKeyframe_on]
    cases TimelineEdit.lookUpKeyframe t trackId id <;> rfl
  · intro p hp
    cases p with
    | animation _ => rfl
    | track _ _ _ => rfl
    | keyframe animationId elementId owner k =>
      have other : ¬ (owner = trackId ∧ k.id = id) := by
        rintro ⟨rfl, hid⟩
        exact hp animationId elementId k rfl hid
      simp only [after, removes, edit, if_neg other, Bool.false_eq_true, if_false]
  · rintro track k rfl hk
    obtain rfl : k.id = id := by simpa using List.find?_some hk
    obtain ⟨before, after, hkeyframes, changed, _⟩ := exists_split_of_find? hk
    let merged : Keyframe :=
      { k with time := time.getD k.time, properties := k.properties.insertAll properties }
    refine ⟨before, after, [merged], _, hkeyframes, rfl, ?_, fun _ _ => ?_⟩
    · rw [changed]
      split
      · exact List.mergeSort_perm _ _
      · exact List.Perm.refl _
    · simp [TimelineCall.after, removes, edit, merged]

private theorem removeKeyframe_steps (h : t.IdsDistinct) (trackId id : String) :
    Steps ids t (removeKeyframe trackId id) := by
  refine keyframe_steps h trackId id (Track.removeKeyframe id) rfl ?_ ?_ ?_
  · rw [run, TimelineEdit.removeKeyframe_on]
    cases TimelineEdit.lookUpKeyframe t trackId id <;> rfl
  · intro p hp
    cases p with
    | animation _ => rfl
    | track _ _ _ => rfl
    | keyframe animationId elementId owner k =>
      have other : ¬ (owner = trackId ∧ k.id = id) := by
        rintro ⟨rfl, hid⟩
        exact hp animationId elementId k rfl hid
      simp only [after, removes, edit, other, decide_false, Bool.false_eq_true, if_false]
  · rintro track k rfl hk
    obtain rfl : k.id = id := by simpa using List.find?_some hk
    obtain ⟨before, after, hkeyframes, _, erased⟩ := exists_split_of_find? hk
    refine ⟨before, after, [], _, hkeyframes, rfl, List.Perm.of_eq erased, fun _ _ => ?_⟩
    simp [TimelineCall.after, removes]

/-- On a timeline with distinct ids, a call makes of each part what becomes of it, and adds its new
parts. The order of the parts may change. -/
theorem run_parts_perm (ids : IdSupply) (call : TimelineCall) (h : t.IdsDistinct) :
    (call.run ids t).parts.Perm (t.parts.filterMap call.after ++ call.newParts ids t) := by
  cases call with
  | addAnimation elementId trigger presetId => exact addAnimation_steps elementId trigger presetId
  | updateAnimation id name duration delay => exact updateAnimation_steps h id name duration delay
  | removeAnimation id => exact removeAnimation_steps h id
  | addTrack animationId property => exact addTrack_steps h animationId property
  | setTrackEasing trackId easing => exact setTrackEasing_steps h trackId easing
  | removeTrack trackId => exact removeTrack_steps h trackId
  | addKeyframe trackId time properties => exact addKeyframe_steps h trackId time properties
  | updateKeyframe trackId id time properties =>
    exact updateKeyframe_steps h trackId id time properties
  | removeKeyframe trackId id => exact removeKeyframe_steps h trackId id
  | removeForElement elementId => exact removeForElement_steps elementId

end TimelineCall

end Pagewright
