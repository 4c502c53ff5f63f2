import Pagewright.Animation.Timeline
import Pagewright.Proofs.Edit

/-! What the edits of a timeline give and leave behind, case by case. -/

namespace Pagewright

namespace TimelineEdit

variable (ids : IdSupply) (t : Timeline)

theorem requireAnimation_on (id : String) : (requireAnimation id).on t =
    match t.find? id with
    | some a => (.ok a, t)
    | none => (.error (.animationNotFound id), t) := by
  simp only [requireAnimation, Edit.on_bind, Edit.on_get]
  cases t.find? id <;> rfl

theorem requireTrack_on (id : String) : (requireTrack id).on t =
    match t.findTrack? id with
    | some track => (.ok track, t)
    | none => (.error (.trackNotFound id), t) := by
  simp only [requireTrack, Edit.on_bind, Edit.on_get]
  cases t.findTrack? id <;> rfl

/-- The first keyframe with an id in the first track with an id, or which of them is missing. -/
def lookUpKeyframe (trackId id : String) : Except TimelineError Keyframe :=
  match t.findTrack? trackId with
  | some track =>
    match track.keyframes.find? fun k => k.id = id with
    | some k => .ok k
    | none => .error (.keyframeNotFound id)
  | none => .error (.trackNotFound trackId)

theorem requireKeyframe_on (trackId id : String) :
    (requireKeyframe trackId id).on t = (lookUpKeyframe t trackId id, t) := by
  simp only [requireKeyframe, Edit.on_bind, requireTrack_on, lookUpKeyframe]
  cases t.findTrack? trackId with
  | none => rfl
  | some track =>
    dsimp only
    cases track.keyframes.find? fun k => k.id = id <;> rfl

/-- The animation that a preset starts as. -/
def presetAnimation (elementId : String) (trigger : Trigger) (preset : Preset) : Animation :=
  { Animation.bare (t.nextId ids 0) elementId trigger with
    duration := preset.duration
    tracks := PresetTrack.instantiateAll ids (t.drawn + 2) elementId preset.tracks }

theorem addAnimation_on (elementId : String) (trigger : Trigger) (presetId : Option String) :
    (addAnimation ids elementId trigger presetId).on t =
    match presetId with
    | none =>
      (.ok (t.nextId ids 0),
        ⟨t.animations ++ [Animation.bare (t.nextId ids 0) elementId trigger], t.drawn + 1⟩)
    | some presetId =>
      match Preset.find? presetId with
      | some preset =>
        (.ok (t.nextId ids 0),
          ⟨t.animations ++ [presetAnimation ids t elementId trigger preset],
            t.drawn + 1 + PresetTrack.idCountAll preset.tracks⟩)
      | none => (.error (.unknownPreset presetId), t) := by
  simp only [addAnimation, Edit.on_bind, Edit.on_get]
  cases presetId with
  | none => rfl
  | some presetId =>
    simp only [Edit.on_bind]
    cases Preset.find? presetId <;> rfl

theorem updateAnimation_on (id : String) (name : Option String) (duration delay : Option Number) :
    (updateAnimation id name duration delay).on t =
    match t.find? id with
    | some _ =>
      (.ok (), t.changeAnimation id fun a =>
        { a with
          name := name.getD a.name
          duration := duration.getD a.duration
          delay := delay.getD a.delay })
    | none => (.error (.animationNotFound id), t) := by
  simp only [updateAnimation, Edit.on_bind, requireAnimation_on]
  cases t.find? id <;> rfl

theorem removeAnimation_on (id : String) : (removeAnimation id).on t =
    match t.find? id with
    | some a => (.ok a, { t with animations := t.animations.eraseP fun a => a.id = id })
    | none => (.error (.animationNotFound id), t) := by
  simp only [removeAnimation, Edit.on_bind, requireAnimation_on]
  cases t.find? id <;> rfl

/-- The track that a property of an animation starts with. -/
def startingTrack (a : Animation) (property : String) : Track :=
  (rampTrack property a.duration).instantiate ids (t.drawn + 1) a.elementId

theorem addTrack_on (animationId property : String) : (addTrack ids animationId property).on t =
    match t.find? animationId with
    | some a =>
      let track := startingTrack ids t a property
      (.ok track.id,
        { t.changeAnimation animationId (fun a => { a with tracks := a.tracks ++ [track] }) with
          drawn := t.drawn + (rampTrack property a.duration).idCount })
    | none => (.error (.animationNotFound animationId), t) := by
  simp only [addTrack, Edit.on_bind, requireAnimation_on]
  cases t.find? animationId <;> rfl

theorem setTrackEasing_on (trackId easing : String) : (setTrackEasing trackId easing).on t =
    match t.findTrack? trackId with
    | some _ => (.ok (), t.changeTrack trackId fun track => { track with easing := easing })
    | none => (.error (.trackNotFound trackId), t) := by
  simp only [setTrackEasing, Edit.on_bind, requireTrack_on]
  cases t.findTrack? trackId <;> rfl

theorem removeTrack_on (trackId : String) : (removeTrack trackId).on t =
    match t.findTrack? trackId with
    | some track =>
      (.ok track,
        t.changeOwner trackId fun tracks => tracks.eraseP fun track => track.id = trackId)
    | none => (.error (.trackNotFound trackId), t) := by
  simp only [removeTrack, Edit.on_bind, requireTrack_on]
  cases t.findTrack? trackId <;> rfl

theorem addKeyframe_on (trackId : String) (time : Number) (properties : Dict Scalar) :
    (addKeyframe ids trackId time properties).on t =
    match t.findTrack? trackId with
    | some _ =>
      (.ok (t.nextId ids 0),
        { t.changeTrack trackId (Track.addKeyframe ⟨t.nextId ids 0, time, properties⟩) with
          drawn := t.drawn + 1 })
    | none => (.error (.trackNotFound trackId), t) := by
  simp only [addKeyframe, Edit.on_bind, requireTrack_on]
  cases t.findTrack? trackId <;> rfl

theorem updateKeyframe_on (trackId id : String) (time : Option Number)
    (properties : List (String × Scalar)) :
    (updateKeyframe trackId id time properties).on t =
    match lookUpKeyframe t trackId id with
    | .ok _ => (.ok (), t.changeTrack trackId (Track.updateKeyframe id time properties))
    | .error error => (.error error, t) := by
  simp only [updateKeyframe, Edit.on_bind, requireKeyframe_on]
  cases lookUpKeyframe t trackId id <;> rfl

theorem removeKeyframe_on (trackId id : String) : (removeKeyframe trackId id).on t =
    match lookUpKeyframe t trackId id with
    | .ok k => (.ok k, t.changeTrack trackId (Track.removeKeyframe id))
    | .error error => (.error error, t) := by
  simp only [removeKeyframe, Edit.on_bind, requireKeyframe_on]
  cases lookUpKeyframe t trackId id <;> rfl

theorem removeForElement_on (elementId : String) : (removeForElement elementId).on t =
    (.ok (t.animations.length - (t.animations.filter fun a => a.elementId ≠ elementId).length),
      { t with animations := t.animations.filter fun a => a.elementId ≠ elementId }) := rfl

end TimelineEdit

end Pagewright
