import Mathlib.Data.List.Flatten
import Mathlib.Data.List.Nodup
import Pagewright.Proofs.Timeline.Edits

/-! The parts of a timeline: its animations, tracks and keyframes, each with its own data and the
ids of its owners. As long as their ids are distinct, they are what the look-ups of the edits
find. -/

namespace Pagewright

/-- An animation without its tracks, a track without its keyframes, or a keyframe. -/
inductive TimelinePart where
  | animation (a : Animation)
  | track (animationId elementId : String) (t : Track)
  | keyframe (animationId elementId trackId : String) (k : Keyframe)

namespace TimelinePart

def id : TimelinePart → String
  | animation a => a.id
  | track _ _ t => t.id
  | keyframe _ _ _ k => k.id

/-- The animation that a part is or belongs to. -/
def animationId : TimelinePart → String
  | animation a => a.id
  | track animationId _ _ => animationId
  | keyframe animationId _ _ _ => animationId

/-- The element that the animation of a part is for. -/
def elementId : TimelinePart → String
  | animation a => a.elementId
  | track _ elementId _ => elementId
  | keyframe _ elementId _ _ => elementId

/-- The track that a part is or belongs to. -/
def trackId? : TimelinePart → Option String
  | animation _ => none
  | track _ _ t => some t.id
  | keyframe _ _ trackId _ => some trackId

end TimelinePart

namespace Track

def own (t : Track) : Track := { t with keyframes := [] }

def parts (animationId elementId : String) (t : Track) : List TimelinePart :=
  .track animationId elementId t.own :: t.keyframes.map (.keyframe animationId elementId t.id)

variable {animationId elementId : String} {t : Track} {p : TimelinePart}

theorem mem_parts : p ∈ t.parts animationId elementId ↔
    p = .track animationId elementId t.own ∨
      ∃ k ∈ t.keyframes, p = .keyframe animationId elementId t.id k := by
  simp [parts, eq_comm]

theorem trackId?_of_mem (h : p ∈ t.parts animationId elementId) : p.trackId? = some t.id := by
  rcases mem_parts.mp h with rfl | ⟨k, _, rfl⟩ <;> rfl

theorem parts_map_id : (t.parts animationId elementId).map TimelinePart.id =
    t.id :: t.keyframes.map Keyframe.id := by
  rw [parts, List.map_cons, List.map_map]
  rfl

end Track

namespace Animation

def own (a : Animation) : Animation := { a with tracks := [] }

def parts (a : Animation) : List TimelinePart :=
  .animation a.own :: a.tracks.flatMap (Track.parts a.id a.elementId)

variable {a : Animation} {p : TimelinePart}

theorem mem_parts : p ∈ a.parts ↔
    p = .animation a.own ∨ ∃ track ∈ a.tracks, p ∈ track.parts a.id a.elementId := by
  rw [parts, List.mem_cons, List.mem_flatMap]

theorem animationId_of_mem (h : p ∈ a.parts) : p.animationId = a.id := by
  rcases mem_parts.mp h with rfl | ⟨track, _, h⟩
  · rfl
  · rcases Track.mem_parts.mp h with rfl | ⟨k, _, rfl⟩ <;> rfl

theorem elementId_of_mem (h : p ∈ a.parts) : p.elementId = a.elementId := by
  rcases mem_parts.mp h with rfl | ⟨track, _, h⟩
  · rfl
  · rcases Track.mem_parts.mp h with rfl | ⟨k, _, rfl⟩ <;> rfl

/-- A part of a track comes with its track. -/
theorem exists_track_of_mem {trackId : String} (h : p ∈ a.parts) (hp : p.trackId? = some trackId) :
    ∃ owner ∈ a.parts, owner.id = trackId := by
  rcases mem_parts.mp h with rfl | ⟨track, htrack, h⟩
  · cases hp
  · rw [Track.trackId?_of_mem h, Option.some.injEq] at hp
    refine ⟨.track a.id a.elementId track.own, mem_parts.mpr (.inr ⟨track, htrack, ?_⟩), hp⟩
    exact List.mem_cons_self

end Animation

namespace Timeline

def parts (t : Timeline) : List TimelinePart := t.animations.flatMap Animation.parts

/-- The part that an id designates. -/
def part? (t : Timeline) (id : String) : Option TimelinePart := t.parts.find? fun p => p.id = id

/-- The first animation that has a track with an id. -/
def ownerOf? (t : Timeline) (trackId : String) : Option Animation :=
  t.animations.find? fun a => a.tracks.any fun track => track.id = trackId

/-- No two parts have the same id. -/
def IdsDistinct (t : Timeline) : Prop := (t.parts.map TimelinePart.id).Nodup

/-- What the edits look up under the ids of a part and of its owners is this part. -/
def Reaches (t : Timeline) : TimelinePart → Prop
  | .animation a => ∃ whole, t.find? a.id = some whole ∧ whole.own = a
  | .track animationId elementId track =>
    ∃ owner whole, t.find? animationId = some owner ∧ owner.elementId = elementId ∧
      whole ∈ owner.tracks ∧ t.findTrack? track.id = some whole ∧ whole.own = track
  | .keyframe animationId elementId trackId k =>
    ∃ owner track, t.find? animationId = some owner ∧ owner.elementId = elementId ∧
      track ∈ owner.tracks ∧ t.findTrack? trackId = some track ∧
        TimelineEdit.lookUpKeyframe t trackId k.id = .ok k

variable {t : Timeline} {p : TimelinePart}

theorem mem_parts : p ∈ t.parts ↔ ∃ a ∈ t.animations, p ∈ a.parts := List.mem_flatMap

/-- With distinct keys, searching for the key of an entry gives that entry. -/
private theorem find?_key_eq_of_mem {α : Type} {key : α → String} {entries : List α} {x : α}
    (hnodup : (entries.map key).Nodup) (hx : x ∈ entries) :
    entries.find? (fun y => key y = key x) = some x := by
  have found : (entries.find? fun y => key y = key x).isSome :=
    List.find?_isSome.mpr ⟨x, hx, by simp⟩
  obtain ⟨y, hy⟩ := Option.isSome_iff_exists.mp found
  have hkey : key y = key x := by simpa using List.find?_some hy
  rw [hy, List.inj_on_of_nodup_map hnodup (List.mem_of_find?_eq_some hy) hx hkey]

theorem lookUpKeyframe_eq_ok_iff {trackId id : String} {k : Keyframe} :
    TimelineEdit.lookUpKeyframe t trackId id = .ok k ↔
      ∃ track, t.findTrack? trackId = some track ∧
        track.keyframes.find? (fun k => k.id = id) = some k := by
  rw [TimelineEdit.lookUpKeyframe]
  cases t.findTrack? trackId with
  | none => simp
  | some track =>
    cases hk : track.keyframes.find? fun k => k.id = id <;> simp [hk]

theorem animationId_ne_of_find?_eq_none {id : String} (h : t.find? id = none) (hp : p ∈ t.parts) :
    p.animationId ≠ id := by
  obtain ⟨a, ha, hp⟩ := mem_parts.mp hp
  rw [Animation.animationId_of_mem hp]
  simpa using List.find?_eq_none.mp h a ha

theorem trackId?_ne_of_findTrack?_eq_none {trackId : String} (h : t.findTrack? trackId = none)
    (hp : p ∈ t.parts) : p.trackId? ≠ some trackId := by
  intro hid
  obtain ⟨a, ha, hp⟩ := mem_parts.mp hp
  rcases Animation.mem_parts.mp hp with rfl | ⟨track, htrack, hp⟩
  · cases hid
  · rw [Track.trackId?_of_mem hp, Option.some.injEq] at hid
    have other := List.find?_eq_none.mp h track (List.mem_flatMap.mpr ⟨a, ha, htrack⟩)
    simp [hid] at other

/-- The track that is found under an id is the first of its owner with this id. -/
theorem exists_ownerOf?_of_findTrack? {trackId : String} {track : Track}
    (h : t.findTrack? trackId = some track) :
    ∃ a, t.ownerOf? trackId = some a ∧
      a.tracks.find? (fun track => track.id = trackId) = some track := by
  rw [findTrack?, List.find?_flatMap, List.findSome?_eq_some_iff] at h
  obtain ⟨before, a, after, ht, found, none⟩ := h
  refine ⟨a, List.find?_eq_some_iff_append.mpr ⟨?_, before, after, ht, fun other ho => ?_⟩, found⟩
  · refine List.any_eq_true.mpr ⟨track, List.mem_of_find?_eq_some found, ?_⟩
    simpa using List.find?_some found
  · simpa using none other ho

theorem ownerOf?_of_findTrack?_eq_none {trackId : String} (h : t.findTrack? trackId = none) :
    t.ownerOf? trackId = none := by
  rw [findTrack?, List.find?_flatMap, List.findSome?_eq_none_iff] at h
  exact List.find?_eq_none.mpr fun a ha => by simpa using h a ha

namespace IdsDistinct

theorem animations (h : t.IdsDistinct) : (t.animations.map Animation.id).Nodup := by
  refine h.sublist ?_
  rw [List.map_eq_flatMap, Timeline.parts, List.map_flatMap]
  refine List.Sublist.flatMap_right _ fun a _ => ?_
  exact (List.nil_sublist _).cons_cons _

theorem tracks (h : t.IdsDistinct) :
    ((t.animations.flatMap Animation.tracks).map Track.id).Nodup := by
  refine h.sublist ?_
  rw [List.map_flatMap, Timeline.parts, List.map_flatMap]
  refine List.Sublist.flatMap_right _ fun a _ => List.Sublist.cons _ ?_
  rw [List.map_eq_flatMap, List.map_flatMap]
  refine List.Sublist.flatMap_right _ fun track _ => ?_
  exact (List.nil_sublist _).cons_cons _

theorem of_animation (h : t.IdsDistinct) {a : Animation} (ha : a ∈ t.animations) :
    (a.parts.map TimelinePart.id).Nodup := by
  rw [IdsDistinct, Timeline.parts, List.map_flatMap, List.nodup_flatMap] at h
  exact h.1 a ha

theorem of_track (h : t.IdsDistinct) {a : Animation} {track : Track} (ha : a ∈ t.animations)
    (htrack : track ∈ a.tracks) : (track.id :: track.keyframes.map Keyframe.id).Nodup := by
  have ofAnimation := h.of_animation ha
  rw [Animation.parts, List.map_cons, List.nodup_cons, List.map_flatMap,
    List.nodup_flatMap] at ofAnimation
  rw [← Track.parts_map_id]
  exact ofAnimation.2.1 track htrack

theorem find?_eq_of_mem (h : t.IdsDistinct) {a : Animation} (ha : a ∈ t.animations) :
    t.find? a.id = some a :=
  find?_key_eq_of_mem h.animations ha

theorem findTrack?_eq_of_mem (h : t.IdsDistinct) {a : Animation} {track : Track}
    (ha : a ∈ t.animations) (htrack : track ∈ a.tracks) : t.findTrack? track.id = some track :=
  find?_key_eq_of_mem h.tracks (List.mem_flatMap.mpr ⟨a, ha, htrack⟩)

theorem part?_eq_some_iff (h : t.IdsDistinct) {id : String} :
    t.part? id = some p ↔ p ∈ t.parts ∧ p.id = id := by
  constructor
  · intro hp
    exact ⟨List.mem_of_find?_eq_some hp, by simpa using List.find?_some hp⟩
  · rintro ⟨hp, rfl⟩
    exact find?_key_eq_of_mem h hp

/-- The track that is found under an id is the part that the id designates. -/
theorem exists_part?_of_findTrack? (h : t.IdsDistinct) {trackId : String} {track : Track}
    (found : t.findTrack? trackId = some track) :
    ∃ animationId elementId, t.part? trackId = some (.track animationId elementId track.own) := by
  obtain ⟨a, ha, htrack⟩ := List.mem_flatMap.mp (List.mem_of_find?_eq_some found)
  have hid : track.id = trackId := by simpa using List.find?_some found
  refine ⟨a.id, a.elementId, h.part?_eq_some_iff.mpr ⟨mem_parts.mpr ⟨a, ha, ?_⟩, hid⟩⟩
  exact Animation.mem_parts.mpr (.inr ⟨track, htrack, List.mem_cons_self⟩)

/-- With distinct ids, the parts of a timeline are exactly what the edits can look up. -/
theorem reaches_iff (h : t.IdsDistinct) : t.Reaches p ↔ p ∈ t.parts := by
  rw [mem_parts]
  constructor
  · intro reached
    cases p with
    | animation a =>
      obtain ⟨whole, found, rfl⟩ := reached
      exact ⟨whole, List.mem_of_find?_eq_some found, List.mem_cons_self⟩
    | track animationId elementId track =>
      obtain ⟨owner, whole, found, rfl, owned, _, rfl⟩ := reached
      obtain rfl : owner.id = animationId := by simpa using List.find?_some found
      refine ⟨owner, List.mem_of_find?_eq_some found, Animation.mem_parts.mpr ?_⟩
      exact .inr ⟨whole, owned, List.mem_cons_self⟩
    | keyframe animationId elementId trackId k =>
      obtain ⟨owner, track, found, rfl, owned, htrack, hk⟩ := reached
      obtain rfl : owner.id = animationId := by simpa using List.find?_some found
      obtain rfl : track.id = trackId := by simpa using List.find?_some htrack
      obtain ⟨same, hsame, hk⟩ := lookUpKeyframe_eq_ok_iff.mp hk
      obtain rfl : track = same := Option.some.inj (htrack.symm.trans hsame)
      refine ⟨owner, List.mem_of_find?_eq_some found, Animation.mem_parts.mpr ?_⟩
      refine .inr ⟨track, owned, Track.mem_parts.mpr (.inr ⟨k, ?_, rfl⟩)⟩
      exact List.mem_of_find?_eq_some hk
  · rintro ⟨a, ha, hp⟩
    have found := h.find?_eq_of_mem ha
    rcases Animation.mem_parts.mp hp with rfl | ⟨track, htrack, hp⟩
    · exact ⟨a, found, rfl⟩
    · have owned := h.findTrack?_eq_of_mem ha htrack
      rcases Track.mem_parts.mp hp with rfl | ⟨k, hk, rfl⟩
      · exact ⟨a, track, found, rfl, htrack, owned, rfl⟩
      · refine ⟨a, track, found, rfl, htrack, owned, lookUpKeyframe_eq_ok_iff.mpr ?_⟩
        exact ⟨track, owned, find?_key_eq_of_mem (h.of_track ha htrack).of_cons hk⟩

end IdsDistinct

/-- What the edits look up under an id is what the id designates, and the other way around. -/
structure LooksUpParts (t : Timeline) : Prop where
  animation {id : String} {a : Animation} : t.find? id = some a →
    t.part? id = some (.animation a.own)
  track {id : String} {track : Track} : t.findTrack? id = some track →
    ∃ animationId elementId, t.part? id = some (.track animationId elementId track.own)
  keyframe {trackId id : String} {k : Keyframe} :
    TimelineEdit.lookUpKeyframe t trackId id = .ok k →
      ∃ animationId elementId, t.part? id = some (.keyframe animationId elementId trackId k)
  reached {id : String} {p : TimelinePart} : t.part? id = some p → p.id = id ∧ t.Reaches p

theorem IdsDistinct.looksUpParts (h : t.IdsDistinct) : t.LooksUpParts where
  animation {id a} found := by
    have hid : a.id = id := by simpa using List.find?_some found
    refine h.part?_eq_some_iff.mpr ⟨mem_parts.mpr ⟨a, ?_, List.mem_cons_self⟩, hid⟩
    exact List.mem_of_find?_eq_some found
  track found := h.exists_part?_of_findTrack? found
  keyframe {trackId id k} found := by
    obtain ⟨track, htrack, hk⟩ := lookUpKeyframe_eq_ok_iff.mp found
    obtain ⟨a, ha, owned⟩ := List.mem_flatMap.mp (List.mem_of_find?_eq_some htrack)
    obtain rfl : track.id = trackId := by simpa using List.find?_some htrack
    have hid : k.id = id := by simpa using List.find?_some hk
    refine ⟨a.id, a.elementId, h.part?_eq_some_iff.mpr ⟨mem_parts.mpr ⟨a, ha, ?_⟩, hid⟩⟩
    refine Animation.mem_parts.mpr (.inr ⟨track, owned, Track.mem_parts.mpr (.inr ⟨k, ?_, rfl⟩)⟩)
    exact List.mem_of_find?_eq_some hk
  reached designated := by
    obtain ⟨hp, hid⟩ := h.part?_eq_some_iff.mp designated
    exact ⟨hid, h.reaches_iff.mpr hp⟩

end Timeline

end Pagewright
