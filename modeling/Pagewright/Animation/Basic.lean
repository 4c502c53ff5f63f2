import Pagewright.Dict
import Pagewright.Scalar

/-!
Keyframe animations. An animation belongs to an element and drives some of its properties, each
with a track of keyframes. A property may be one channel of the composite `transform`.
-/

namespace Pagewright

inductive Trigger where
  | entry
  | exit
  | hover
  | click
  | scroll
deriving DecidableEq, Repr, Inhabited

namespace Trigger

def all : List Trigger := [entry, exit, hover, click, scroll]

def name : Trigger → String
  | entry => "entry"
  | exit => "exit"
  | hover => "hover"
  | click => "click"
  | scroll => "scroll"

end Trigger

/-- A sample of values at a time, in milliseconds from the start of the animation. -/
structure Keyframe where
  id : String
  time : Number
  properties : Dict Scalar
deriving Inhabited

namespace Keyframe

def ofValue (id : String) (time : Number) (value : Scalar) : Keyframe :=
  ⟨id, time, Dict.empty.insert "value" value⟩

/-- The sampled value that all renderings use. -/
def value? (k : Keyframe) : Option Scalar := k.properties.get? "value"

/-- Keyframes in ascending order of time; those of one time keep their order. -/
def sort (keyframes : List Keyframe) : List Keyframe :=
  keyframes.mergeSort fun a b => a.time.precedes b.time

end Keyframe

/-- The channels of the composite transform that can be driven on their own. -/
inductive Channel where
  | translateX
  | translateY
  | scale
  | rotate
deriving DecidableEq, Repr

namespace Channel

def all : List Channel := [translateX, translateY, scale, rotate]

/-- The transform function of a channel, which is also its name in a track. -/
def function : Channel → String
  | translateX => "translateX"
  | translateY => "translateY"
  | scale => "scale"
  | rotate => "rotate"

def ofName? (name : String) : Option Channel := all.find? fun c => c.function = name

end Channel

inductive Target where
  | property (name : String)
  | channel (c : Channel)
  /-- A part of the transform that no rendering knows. -/
  | unknownChannel
deriving DecidableEq, Repr

structure Track where
  id : String
  elementId : String
  property : String
  keyframes : List Keyframe
  easing : String
deriving Inhabited

namespace Track

/-- The beginning of a property that names a transform channel. -/
def channelMark : List Char := "transform.".toList

def target (t : Track) : Target :=
  let name := t.property.toList
  if channelMark.isPrefixOf name then
    match Channel.ofName? (String.ofList (name.drop channelMark.length)) with
    | some c => .channel c
    | none => .unknownChannel
  else .property t.property

def sorted (t : Track) : Track := { t with keyframes := Keyframe.sort t.keyframes }

end Track

/-- An animation of one element. Times are in milliseconds. -/
structure Animation where
  id : String
  elementId : String
  name : String
  trigger : Trigger
  tracks : List Track
  duration : Number
  delay : Number
deriving Inhabited

namespace Animation

/-- An animation of one second without tracks. -/
def bare (id elementId : String) (trigger : Trigger) : Animation :=
  ⟨id, elementId, trigger.name ++ " animation", trigger, [], 1000, 0⟩

/-- Appends a track of the given samples. Its id is the animation's with the index of the track,
and the keyframes are numbered as given, before they are sorted. -/
def withTrack (a : Animation) (property easing : String) (samples : List (Number × Scalar)) :
    Animation :=
  let id := a.id ++ "-" ++ toString a.tracks.length
  let keyframes := samples.mapIdx fun i (time, value) =>
    Keyframe.ofValue (id ++ "-" ++ toString i) time value
  { a with tracks := a.tracks ++ [(Track.mk id a.elementId property keyframes easing).sorted] }

def sorted (a : Animation) : Animation := { a with tracks := a.tracks.map Track.sorted }

/-- The keyframes that have a value, track by track, with that value. -/
def samples (a : Animation) : List (Track × Keyframe × Scalar) :=
  a.tracks.flatMap fun t => t.keyframes.filterMap fun k => k.value?.map (t, k, ·)

end Animation

end Pagewright
