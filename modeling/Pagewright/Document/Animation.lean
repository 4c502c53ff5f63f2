import Pagewright.Animation.Basic
import Pagewright.Document.Element

/-! Animations in documents. -/

namespace Pagewright

def Keyframe.toDocument (k : Keyframe) : Json :=
  .object [("id", .string k.id), ("time", .number k.time),
    ("properties", scalarsDocument k.properties)]

def Track.toDocument (t : Track) : Json :=
  .object [("id", .string t.id), ("elementId", .string t.elementId),
    ("property", .string t.property), ("keyframes", .array (t.keyframes.map Keyframe.toDocument)),
    ("easing", .string t.easing)]

def Animation.toDocument (a : Animation) : Json :=
  .object [("id", .string a.id), ("elementId", .string a.elementId), ("name", .string a.name),
    ("type", .string a.trigger.name), ("tracks", .array (a.tracks.map Track.toDocument)),
    ("duration", .number a.duration), ("delay", .number a.delay)]

def animationsDocument (animations : List Animation) : Json :=
  .array (animations.map Animation.toDocument)

def keyframeFields : List String := ["id", "time", "properties"]

def trackFields : List String := ["id", "elementId", "property", "keyframes", "easing"]

def animationFields : List String :=
  ["id", "elementId", "name", "type", "tracks", "duration", "delay"]

namespace Decoder

def keyframe : Decoder Keyframe
  | 0, _ => none
  | limit + 1, j =>
    match slots? keyframeFields j with
    | some [id, time, properties] => do
      let id ← required string limit id
      let time ← required number limit time
      let properties ← optional .empty scalars limit properties
      return ⟨id, time, properties⟩
    | _ => none

def track : Decoder Track
  | 0, _ => none
  | limit + 1, j =>
    match slots? trackFields j with
    | some [id, elementId, property, keyframes, easing] => do
      let id ← required string limit id
      let elementId ← required string limit elementId
      let property ← required string limit property
      let keyframes ← optional [] (list keyframe) limit keyframes
      let easing ← optional "" string limit easing
      return ⟨id, elementId, property, keyframes, easing⟩
    | _ => none

def animation : Decoder Animation
  | 0, _ => none
  | limit + 1, j =>
    match slots? animationFields j with
    | some [id, elementId, name, trigger, tracks, duration, delay] => do
      let id ← required string limit id
      let elementId ← required string limit elementId
      let name ← required string limit name
      let trigger ← required (named Trigger.all Trigger.name) limit trigger
      let tracks ← optional [] (list track) limit tracks
      let duration ← required number limit duration
      let delay ← optional 0 number limit delay
      return ⟨id, elementId, name, trigger, tracks, duration, delay⟩
    | _ => none

end Decoder

end Pagewright
