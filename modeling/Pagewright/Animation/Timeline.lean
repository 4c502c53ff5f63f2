import Pagewright.Animation.Preset
import Pagewright.Edit

/-!
Editing the animations of a page. Animations are addressed by id, tracks by id across all
animations, and keyframes by id within their track; the first match counts. New ids are drawn in
order from a supply, and an edit that fails draws none.
-/

namespace Pagewright

/-- The animations of a page, and how many ids have been drawn for them. -/
structure Timeline where
  animations : List Animation
  drawn : Nat

inductive TimelineError where
  | animationNotFound (id : String)
  | trackNotFound (id : String)
  | keyframeNotFound (id : String)
  | unknownPreset (id : String)
deriving DecidableEq, Repr

def TimelineError.message : TimelineError → String
  | animationNotFound id => "Animation not found: " ++ id
  | trackNotFound id => "Track not found: " ++ id
  | keyframeNotFound id => "Keyframe not found: " ++ id
  | unknownPreset id => "Unknown animation preset: " ++ id

/-- The ids that new parts of a timeline get: the first drawn is number one. -/
abbrev IdSupply := Nat → String

namespace Timeline

def empty : Timeline := ⟨[], 0⟩

/-- A timeline of existing animations, with every track sorted. -/
def ofAnimations (animations : List Animation) : Timeline := ⟨animations.map Animation.sorted, 0⟩

def find? (t : Timeline) (id : String) : Option Animation := t.animations.find? fun a => a.id = id

/-- The animations of an element, in order of creation. -/
def forElement (t : Timeline) (elementId : String) : List Animation :=
  t.animations.filter fun a => a.elementId = elementId

def findTrack? (t : Timeline) (id : String) : Option Track :=
  (t.animations.flatMap Animation.tracks).find? fun track => track.id = id

def changeAnimation (t : Timeline) (id : String) (f : Animation → Animation) : Timeline :=
  { t with animations := changeFirst (fun a => a.id = id) f t.animations }

/-- Changes the tracks of the first animation that has a track with an id. -/
def changeOwner (t : Timeline) (trackId : String) (f : List Track → List Track) : Timeline :=
  { t with
    animations := changeFirst (fun a => a.tracks.any fun track => track.id = trackId)
      (fun a => { a with tracks := f a.tracks }) t.animations }

def changeTrack (t : Timeline) (id : String) (f : Track → Track) : Timeline :=
  t.changeOwner id (changeFirst (fun track => track.id = id) f)

/-- The id of a number in the supply, counted on from those already drawn. -/
def nextId (t : Timeline) (ids : IdSupply) (offset : Nat) : String := ids (t.drawn + 1 + offset)

end Timeline

namespace PresetTrack

/-- How many ids a track of this form needs, with its keyframes. -/
def idCount (p : PresetTrack) : Nat := 1 + p.samples.length

/-- A track of this form, with the ids from a number on: its own, then those of the keyframes. -/
def instantiate (ids : IdSupply) (start : Nat) (elementId : String) (p : PresetTrack) : Track :=
  let keyframes := p.samples.mapIdx fun i (time, value) =>
    Keyframe.ofValue (ids (start + 1 + i)) time value
  ⟨ids start, elementId, p.property, keyframes, p.easing⟩

def idCountAll : List PresetTrack → Nat
  | [] => 0
  | p :: rest => p.idCount + idCountAll rest

def instantiateAll (ids : IdSupply) (start : Nat) (elementId : String) : List PresetTrack → List Track
  | [] => []
  | p :: rest =>
    p.instantiate ids start elementId :: instantiateAll ids (start + p.idCount) elementId rest

end PresetTrack

/-- The two-point track that a property starts with: opacity from nothing to full, any other
property over a hundred pixels. -/
def rampTrack (property : String) (duration : Number) : PresetTrack :=
  let (first, last) :=
    if property = "opacity" then (Scalar.number 0, Scalar.number 1)
    else (Scalar.text "0px", Scalar.text "100px")
  ⟨property, [(0, first), (duration, last)], "ease-in-out"⟩

namespace Track

/-- Adds a keyframe behind those of earlier or equal time. -/
def addKeyframe (k : Keyframe) (t : Track) : Track :=
  { t with keyframes := Keyframe.sort (t.keyframes ++ [k]) }

/-- Merges values into the first keyframe with an id and moves it to a new time. -/
def updateKeyframe (id : String) (time : Option Number) (properties : List (String × Scalar))
    (t : Track) : Track :=
  let merged (k : Keyframe) : Keyframe :=
    { k with time := time.getD k.time, properties := k.properties.insertAll properties }
  let keyframes := changeFirst (fun k => k.id = id) merged t.keyframes
  { t with keyframes := if time.isSome then Keyframe.sort keyframes else keyframes }

def removeKeyframe (id : String) (t : Track) : Track :=
  { t with keyframes := t.keyframes.eraseP fun k => k.id = id }

end Track

abbrev TimelineEdit (α : Type) : Type := Edit Timeline TimelineError α

namespace TimelineEdit

def requireAnimation (id : String) : TimelineEdit Animation := do
  Edit.orFail (.animationNotFound id) ((← get).find? id)

def requireTrack (id : String) : TimelineEdit Track := do
  Edit.orFail (.trackNotFound id) ((← get).findTrack? id)

/-- Fails unless the track exists and has a keyframe with the id. -/
def requireKeyframe (trackId id : String) : TimelineEdit Keyframe := do
  let track ← requireTrack trackId
  Edit.orFail (.keyframeNotFound id) (track.keyframes.find? fun k => k.id = id)

/-- Creates an animation, from a preset if one is named, and gives its id. -/
def addAnimation (ids : IdSupply) (elementId : String) (trigger : Trigger)
    (presetId : Option String) : TimelineEdit String := do
  let t ← get
  let id := t.nextId ids 0
  let bare := Animation.bare id elementId trigger
  match presetId with
  | none => set { t with animations := t.animations ++ [bare], drawn := t.drawn + 1 }
  | some presetId =>
    let preset ← Edit.orFail (.unknownPreset presetId) (Preset.find? presetId)
    let tracks := PresetTrack.instantiateAll ids (t.drawn + 2) elementId preset.tracks
    let added := { bare with duration := preset.duration, tracks := tracks }
    let drawn := t.drawn + 1 + PresetTrack.idCountAll preset.tracks
    set { t with animations := t.animations ++ [added], drawn := drawn }
  return id

/-- Changes name, duration or delay, each only if given. -/
def updateAnimation (id : String) (name : Option String) (duration delay : Option Number) :
    TimelineEdit Unit := do
  let _ ← requireAnimation id
  modify fun t => t.changeAnimation id fun a =>
    { a with
      name := name.getD a.name
      duration := duration.getD a.duration
      delay := delay.getD a.delay }

def removeAnimation (id : String) : TimelineEdit Animation := do
  let removed ← requireAnimation id
  modify fun t => { t with animations := t.animations.eraseP fun a => a.id = id }
  return removed

/-- Adds a track that runs over the whole duration, and gives its id. -/
def addTrack (ids : IdSupply) (animationId property : String) : TimelineEdit String := do
  let animation ← requireAnimation animationId
  let t ← get
  let ramp := rampTrack property animation.duration
  let track := ramp.instantiate ids (t.drawn + 1) animation.elementId
  set { t.changeAnimation animationId (fun a => { a with tracks := a.tracks ++ [track] }) with
    drawn := t.drawn + ramp.idCount }
  return track.id

def setTrackEasing (trackId easing : String) : TimelineEdit Unit := do
  let _ ← requireTrack trackId
  modify fun t => t.changeTrack trackId fun track => { track with easing := easing }

def removeTrack (trackId : String) : TimelineEdit Track := do
  let removed ← requireTrack trackId
  modify fun t => t.changeOwner trackId fun tracks => tracks.eraseP fun track => track.id = trackId
  return removed

def addKeyframe (ids : IdSupply) (trackId : String) (time : Number) (properties : Dict Scalar) :
    TimelineEdit String := do
  let _ ← requireTrack trackId
  let t ← get
  let id := t.nextId ids 0
  set { t.changeTrack trackId (Track.addKeyframe ⟨id, time, properties⟩) with drawn := t.drawn + 1 }
  return id

/-- Merges values into a keyframe and, if a time is given, moves it there. -/
def updateKeyframe (trackId id : String) (time : Option Number)
    (properties : List (String × Scalar)) : TimelineEdit Unit := do
  let _ ← requireKeyframe trackId id
  modify fun t => t.changeTrack trackId (Track.updateKeyframe id time properties)

def removeKeyframe (trackId id : String) : TimelineEdit Keyframe := do
  let removed ← requireKeyframe trackId id
  modify fun t => t.changeTrack trackId (Track.removeKeyframe id)
  return removed

/-- Removes all animations of an element and gives their number. -/
def removeForElement (elementId : String) : TimelineEdit Nat := do
  let t ← get
  let kept := t.animations.filter fun a => a.elementId ≠ elementId
  set { t with animations := kept }
  return t.animations.length - kept.length

end TimelineEdit

end Pagewright
