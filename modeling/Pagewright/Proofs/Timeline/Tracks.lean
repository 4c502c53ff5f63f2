import Pagewright.Proofs.Dict
import Pagewright.Proofs.Timeline.Calls
import Pagewright.Proofs.Timeline.Parts

/-!
The edits that are addressed to a track: all find the same one, the first in document order with
the id, and change nothing around it. Where its keyframes are sorted, an added one comes right
behind those that are not later, and a moved one leaves the others in their order.
-/

namespace Pagewright

namespace Keyframe

private theorem eq_nil_of_forall_not {α : Type} {p : α → Prop} {part whole : List α}
    (sub : ∀ x ∈ part, x ∈ whole) (hwhole : ∀ x ∈ whole, p x) (hpart : ∀ x ∈ part, ¬ p x) :
    part = [] :=
  List.eq_nil_iff_forall_not_mem.mpr fun x hx => hpart x hx (hwhole x (sub x hx))

/-- Sorting puts a keyframe that comes first behind the earlier ones and leaves these and the others
as they are sorted without it. -/
private theorem sort_cons (k : Keyframe) (others : List Keyframe) :
    ∃ left right, sort (k :: others) = left ++ k :: right ∧ sort others = left ++ right ∧
      ∀ other ∈ left, ¬ k.time.precedes other.time := by
  have htrans (a b c : Keyframe) : a.time.precedes b.time → b.time.precedes c.time →
      a.time.precedes c.time := Number.precedes_trans
  have htotal (a b : Keyframe) : a.time.precedes b.time || b.time.precedes a.time :=
    Number.precedes_total a.time b.time
  obtain ⟨left, right, hall, hothers, hleft⟩ := List.mergeSort_cons htrans htotal k others
  exact ⟨left, right, hall, hothers, fun other ho => by simpa using hleft other ho⟩

/-- Sorting leaves keyframes that are in order as they are and puts one more among them, behind
those of its time that it came behind. -/
theorem sort_among {before after : List Keyframe} (k : Keyframe)
    (sorted : (before ++ after).Pairwise fun a b => a.time.precedes b.time) :
    ∃ earlier later, before ++ after = earlier ++ later ∧
      sort (before ++ k :: after) = earlier ++ k :: later ∧
      ∀ other ∈ later, other.time.precedes k.time → other ∈ after := by
  induction before with
  | nil =>
    obtain ⟨left, right, hall, hafter, -⟩ := sort_cons k after
    rw [List.nil_append] at sorted
    rw [sort, List.mergeSort_of_pairwise sorted] at hafter
    exact ⟨left, right, hafter, hall, fun other ho _ => hafter ▸ List.mem_append_right _ ho⟩
  | cons a rest ih =>
    rw [List.cons_append, List.pairwise_cons] at sorted
    obtain ⟨least, sorted⟩ := sorted
    obtain ⟨earlier, later, hothers, hsort, hlater⟩ := ih sorted
    obtain ⟨left, right, hall, hrest, hleft⟩ := sort_cons a (rest ++ k :: after)
    rw [hsort] at hrest
    rw [hothers] at least
    by_cases hk : a.time.precedes k.time
    · -- All others come behind the first one, which therefore stays in front.
      have hwhole : ∀ other ∈ left ++ right, a.time.precedes other.time := by
        rw [← hrest]
        intro other ho
        rcases List.mem_append.mp ho with ho | ho
        · exact least other (List.mem_append_left _ ho)
        · rcases List.mem_cons.mp ho with rfl | ho
          · exact hk
          · exact least other (List.mem_append_right _ ho)
      obtain rfl := eq_nil_of_forall_not (fun _ ho => List.mem_append_left right ho) hwhole hleft
      refine ⟨a :: earlier, later, by rw [List.cons_append, hothers, List.cons_append], ?_, hlater⟩
      rw [List.nil_append] at hall hrest
      rw [List.cons_append, hall, ← hrest, List.cons_append]
    · -- The keyframe comes before the first one, and so before all others.
      have hearlier : ∀ other ∈ earlier, ¬ a.time.precedes other.time := by
        intro other ho hle
        have hsorted := hsort ▸ sort_pairwise (rest ++ k :: after)
        have := (List.pairwise_append.mp hsorted).2.2 other ho k List.mem_cons_self
        exact hk (Number.precedes_trans hle this)
      obtain rfl := eq_nil_of_forall_not (fun _ ho => List.mem_append_left later ho) least hearlier
      rw [List.nil_append] at hrest hothers least
      rcases List.append_eq_cons_iff.mp hrest.symm with ⟨rfl, rfl⟩ | ⟨tail, rfl, rfl⟩
      · have hordered := hall ▸ sort_pairwise (a :: (rest ++ k :: after))
        exact absurd ((List.pairwise_cons.mp hordered).1 k List.mem_cons_self) hk
      · obtain rfl : tail = [] := eq_nil_of_forall_not
          (fun _ ho => List.mem_append_left right ho) least
          fun other ho => hleft other (List.mem_cons_of_mem k ho)
        refine ⟨[], a :: right, ?_, hall, fun other ho hle => ?_⟩
        · rw [List.cons_append, hothers, List.nil_append, List.nil_append]
        · rcases List.mem_cons.mp ho with rfl | ho
          · exact absurd hle hk
          · exact hlater other ho hle

end Keyframe

/-- A place for tracks in a timeline: the animation that holds them, and what is around them. -/
structure TrackPlace where
  before : List Animation
  owner : Animation
  front : List Track
  back : List Track
  after : List Animation

namespace TrackPlace

/-- The animations with some tracks at the place. -/
def fill (place : TrackPlace) (tracks : List Track) : List Animation :=
  place.before ++ { place.owner with tracks := place.front ++ tracks ++ place.back } :: place.after

/-- The timeline with some tracks at the place, and all others as they are. -/
def put (place : TrackPlace) (t : Timeline) (tracks : List Track) : Timeline :=
  { t with animations := place.fill tracks }

/-- A track stands at the place, and none before it in document order has its id. -/
structure IsFirst (place : TrackPlace) (t : Timeline) (track : Track) : Prop where
  animations_eq : t.animations = place.fill [track]
  first : ∀ other ∈ place.before.flatMap Animation.tracks ++ place.front, other.id ≠ track.id

variable {place : TrackPlace} {t : Timeline} {track : Track}

/-- The track that the edits find stands first in some place. -/
theorem exists_isFirst {id : String} (found : t.findTrack? id = some track) :
    track.id = id ∧ ∃ place : TrackPlace, place.IsFirst t track := by
  rw [Timeline.findTrack?, List.find?_flatMap, List.findSome?_eq_some_iff] at found
  obtain ⟨before, owner, after, ht, howned, hbefore⟩ := found
  obtain ⟨hid, front, back, hfront, hfirst⟩ := List.find?_eq_some_iff_append.mp howned
  obtain rfl : track.id = id := by simpa using hid
  refine ⟨rfl, ⟨before, owner, front, back, after⟩, ?_, fun other ho => ?_⟩
  · rw [ht, fill, List.append_assoc, List.singleton_append, ← hfront]
  · rcases List.mem_append.mp ho with ho | ho
    · obtain ⟨a, ha, ho⟩ := List.mem_flatMap.mp ho
      simpa using List.find?_eq_none.mp (hbefore a ha) other ho
    · simpa using hfirst other ho

namespace IsFirst

private theorem not_named (h : place.IsFirst t track) {other : Track}
    (ho : other ∈ place.front) : ¬ decide (other.id = track.id) := by
  simpa using h.first other (List.mem_append_right _ ho)

private theorem changeOwner (h : place.IsFirst t track) {f : List Track → List Track}
    {tracks : List Track}
    (hf : f (place.front ++ [track] ++ place.back) = place.front ++ tracks ++ place.back) :
    t.changeOwner track.id f = place.put t tracks := by
  have hbefore : ∀ a ∈ place.before,
      ¬ a.tracks.any (fun other => decide (other.id = track.id)) := by
    intro a ha hany
    obtain ⟨other, ho, hid⟩ := List.any_eq_true.mp hany
    have := h.first other (List.mem_append_left _ (List.mem_flatMap.mpr ⟨a, ha, ho⟩))
    exact this (of_decide_eq_true hid)
  rw [Timeline.changeOwner, h.animations_eq, put, fill, fill,
    changeFirst_append hbefore (by simp), hf]

theorem changeTrack (h : place.IsFirst t track) (f : Track → Track) :
    t.changeTrack track.id f = place.put t [f track] := by
  refine h.changeOwner ?_
  rw [List.append_assoc, List.singleton_append,
    changeFirst_append (fun _ => h.not_named) (by simp), List.append_assoc,
    List.singleton_append]

theorem eraseTrack (h : place.IsFirst t track) :
    t.changeOwner track.id (fun tracks => tracks.eraseP fun other => other.id = track.id) =
      place.put t [] := by
  refine h.changeOwner ?_
  rw [List.append_assoc, List.singleton_append,
    eraseP_append_cons (fun _ => h.not_named) (by simp), List.append_nil]

theorem findTrack? (h : place.IsFirst t track) : t.findTrack? track.id = some track := by
  have hnone : (place.before.flatMap Animation.tracks ++ place.front).find?
      (fun other => other.id = track.id) = none :=
    List.find?_eq_none.mpr fun other ho => by simpa using h.first other ho
  rw [Timeline.findTrack?, h.animations_eq, fill, List.flatMap_append, List.flatMap_cons,
    List.append_assoc place.front, List.singleton_append, List.append_assoc place.front,
    ← List.append_assoc, List.find?_append, hnone, Option.none_or, List.cons_append,
    List.find?_cons_of_pos (by simp)]

end IsFirst

end TrackPlace

namespace Track

variable {t : Track} {front back : List Keyframe} {k : Keyframe}

/-- An added keyframe comes right behind all that are not later. -/
theorem addKeyframe_eq (k : Keyframe) (sorted : t.IsSorted) :
    ∃ earlier later, t.keyframes = earlier ++ later ∧
      (∀ other ∈ earlier, other.time.precedes k.time) ∧
      (∀ other ∈ later, ¬ other.time.precedes k.time) ∧
      t.addKeyframe k = { t with keyframes := earlier ++ k :: later } := by
  rw [IsSorted, ← List.append_nil t.keyframes] at sorted
  obtain ⟨earlier, later, hothers, hsort, hlater⟩ := Keyframe.sort_among k sorted
  have hordered := hsort ▸ Keyframe.sort_pairwise (t.keyframes ++ [k])
  rw [List.append_nil] at hothers
  refine ⟨earlier, later, hothers, fun other ho => ?_, fun other ho hle => ?_, ?_⟩
  · exact (List.pairwise_append.mp hordered).2.2 other ho k List.mem_cons_self
  · cases hlater other ho hle
  · rw [addKeyframe, hsort]

private theorem change_first (hsplit : t.keyframes = front ++ k :: back)
    (hfirst : ∀ other ∈ front, other.id ≠ k.id) (f : Keyframe → Keyframe) :
    changeFirst (fun other => other.id = k.id) f t.keyframes = front ++ f k :: back := by
  rw [hsplit, changeFirst_append (fun other ho => by simpa using hfirst other ho) (by simp)]

/-- Without a new time a keyframe is updated where it stands. -/
theorem updateKeyframe_none (hsplit : t.keyframes = front ++ k :: back)
    (hfirst : ∀ other ∈ front, other.id ≠ k.id) (properties : List (String × Scalar)) :
    t.updateKeyframe k.id none properties =
      { t with keyframes :=
        front ++ { k with properties := k.properties.insertAll properties } :: back } := by
  rw [updateKeyframe, change_first hsplit hfirst]
  rfl

/-- With a new time a keyframe moves among the others, which stay in order. -/
theorem updateKeyframe_some (sorted : t.IsSorted) (hsplit : t.keyframes = front ++ k :: back)
    (hfirst : ∀ other ∈ front, other.id ≠ k.id) (time : Number)
    (properties : List (String × Scalar)) :
    ∃ earlier later, front ++ back = earlier ++ later ∧
      t.updateKeyframe k.id (some time) properties =
        { t with keyframes :=
          earlier ++ ⟨k.id, time, k.properties.insertAll properties⟩ :: later } := by
  have hothers : (front ++ back).Pairwise fun a b => a.time.precedes b.time := by
    rw [IsSorted, hsplit] at sorted
    exact sorted.sublist ((List.sublist_cons_self k back).append_left front)
  obtain ⟨earlier, later, hkept, hsort, -⟩ :=
    Keyframe.sort_among ⟨k.id, time, k.properties.insertAll properties⟩ hothers
  refine ⟨earlier, later, hkept, ?_⟩
  rw [updateKeyframe, change_first hsplit hfirst, ← hsort]
  rfl

theorem removeKeyframe_eq (hsplit : t.keyframes = front ++ k :: back)
    (hfirst : ∀ other ∈ front, other.id ≠ k.id) :
    t.removeKeyframe k.id = { t with keyframes := front ++ back } := by
  rw [removeKeyframe, hsplit,
    eraseP_append_cons (fun other ho => by simpa using hfirst other ho) (by simp)]

end Track

namespace TimelineEdit

/-- No edit that is addressed to this track finds it, and none changes the timeline. -/
structure MissTrack (ids : IdSupply) (t : Timeline) (trackId : String) : Prop where
  setTrackEasing (easing : String) :
    (setTrackEasing trackId easing).on t = (.error (.trackNotFound trackId), t)
  removeTrack : (removeTrack trackId).on t = (.error (.trackNotFound trackId), t)
  addKeyframe (time : Number) (properties : Dict Scalar) :
    (addKeyframe ids trackId time properties).on t = (.error (.trackNotFound trackId), t)
  updateKeyframe (id : String) (time : Option Number) (properties : List (String × Scalar)) :
    (updateKeyframe trackId id time properties).on t = (.error (.trackNotFound trackId), t)
  removeKeyframe (id : String) :
    (removeKeyframe trackId id).on t = (.error (.trackNotFound trackId), t)

/-- What the edits that are addressed to a track make of it, at the place where it stands. Those
addressed to a keyframe need one of the id, act on the first, and else change nothing. -/
structure ActOnTrack (ids : IdSupply) (t : Timeline) (place : TrackPlace) (track : Track) :
    Prop where
  setTrackEasing (easing : String) : (setTrackEasing track.id easing).on t =
    (.ok (), place.put t [{ track with easing := easing }])
  removeTrack : (removeTrack track.id).on t = (.ok track, place.put t [])
  addKeyframe (time : Number) (properties : Dict Scalar) : ∃ earlier later,
    track.keyframes = earlier ++ later ∧ (∀ k ∈ earlier, k.time.precedes time) ∧
    (∀ k ∈ later, ¬ k.time.precedes time) ∧
    let k : Keyframe := ⟨t.nextId ids 0, time, properties⟩
    (addKeyframe ids track.id time properties).on t = (.ok k.id,
      { place.put t [{ track with keyframes := earlier ++ k :: later }] with drawn := t.drawn + 1 })
  missKeyframe (id : String) (absent : ∀ k ∈ track.keyframes, k.id ≠ id) :
    (∀ time properties, (updateKeyframe track.id id time properties).on t =
      (.error (.keyframeNotFound id), t)) ∧
    (removeKeyframe track.id id).on t = (.error (.keyframeNotFound id), t)
  updateKeyframe (front : List Keyframe) (k : Keyframe) (back : List Keyframe)
    (split : track.keyframes = front ++ k :: back) (first : ∀ other ∈ front, other.id ≠ k.id)
    (properties : List (String × Scalar)) :
    ∃ merged, merged.entries = k.properties.mergedEntries (.ofList properties) ∧
      (updateKeyframe track.id k.id none properties).on t = (.ok (), place.put t
        [{ track with keyframes := front ++ { k with properties := merged } :: back }]) ∧
      ∀ time, ∃ earlier later, front ++ back = earlier ++ later ∧
        let changed := { track with keyframes := earlier ++ ⟨k.id, time, merged⟩ :: later }
        changed.IsSorted ∧
        (updateKeyframe track.id k.id (some time) properties).on t = (.ok (), place.put t [changed])
  removeKeyframe (front : List Keyframe) (k : Keyframe) (back : List Keyframe)
    (split : track.keyframes = front ++ k :: back) (first : ∀ other ∈ front, other.id ≠ k.id) :
    (removeKeyframe track.id k.id).on t =
      (.ok k, place.put t [{ track with keyframes := front ++ back }])

variable {t : Timeline}

theorem missTrack (ids : IdSupply) {trackId : String} (h : t.findTrack? trackId = none) :
    MissTrack ids t trackId where
  setTrackEasing easing := by rw [setTrackEasing_on, h]
  removeTrack := by rw [removeTrack_on, h]
  addKeyframe time properties := by rw [addKeyframe_on, h]
  updateKeyframe id time properties := by rw [updateKeyframe_on, lookUpKeyframe, h]
  removeKeyframe id := by rw [removeKeyframe_on, lookUpKeyframe, h]

/-- The keyframe found in a track is the first with the id. -/
private theorem lookUpKeyframe_eq {track : Track} (found : t.findTrack? track.id = some track)
    {front back : List Keyframe} {k : Keyframe} (hsplit : track.keyframes = front ++ k :: back)
    (hfirst : ∀ other ∈ front, other.id ≠ k.id) : lookUpKeyframe t track.id k.id = .ok k := by
  refine Timeline.lookUpKeyframe_eq_ok_iff.mpr ⟨track, found, ?_⟩
  refine List.find?_eq_some_iff_append.mpr ⟨decide_eq_true rfl, front, back, hsplit, ?_⟩
  exact fun other ho => by simpa using hfirst other ho

theorem actOnTrack (ids : IdSupply) {place : TrackPlace} {track : Track}
    (h : place.IsFirst t track) (sorted : track.IsSorted) : ActOnTrack ids t place track where
  setTrackEasing easing := by rw [setTrackEasing_on, h.findTrack?, h.changeTrack]
  removeTrack := by rw [removeTrack_on, h.findTrack?, h.eraseTrack]
  addKeyframe time properties := by
    obtain ⟨earlier, later, hsplit, hearlier, hlater, hadd⟩ :=
      Track.addKeyframe_eq ⟨t.nextId ids 0, time, properties⟩ sorted
    refine ⟨earlier, later, hsplit, hearlier, hlater, ?_⟩
    rw [addKeyframe_on, h.findTrack?, h.changeTrack, hadd]
  missKeyframe id absent := by
    have hnone : track.keyframes.find? (fun k => k.id = id) = none :=
      List.find?_eq_none.mpr fun k hk => by simpa using absent k hk
    have hfail : lookUpKeyframe t track.id id = .error (.keyframeNotFound id) := by
      rw [lookUpKeyframe, h.findTrack?]
      dsimp only
      rw [hnone]
    exact ⟨fun time properties => by rw [updateKeyframe_on, hfail],
      by rw [removeKeyframe_on, hfail]⟩
  updateKeyframe front k back hsplit hfirst properties := by
    have hfound := lookUpKeyframe_eq h.findTrack? hsplit hfirst
    refine ⟨k.properties.insertAll properties, Dict.entries_insertAll _ _, ?_, fun time => ?_⟩
    · rw [updateKeyframe_on, hfound, h.changeTrack, Track.updateKeyframe_none hsplit hfirst]
    · obtain ⟨earlier, later, hkept, hmoved⟩ :=
        Track.updateKeyframe_some sorted hsplit hfirst time properties
      refine ⟨earlier, later, hkept, ?_, ?_⟩
      · rw [← hmoved]
        exact Track.updateKeyframe_isSorted k.id (some time) properties sorted
      · rw [updateKeyframe_on, hfound, h.changeTrack, hmoved]
  removeKeyframe front k back hsplit hfirst := by
    rw [removeKeyframe_on, lookUpKeyframe_eq h.findTrack? hsplit hfirst, h.changeTrack,
      Track.removeKeyframe_eq hsplit hfirst]

/-- In a sorted timeline the edits that are addressed to a track all fail when no track has the id,
and otherwise all act on the first that has it, in document order, and on nothing else. Ids of
tracks and keyframes may be repeated, and times may be any numbers. -/
theorem track_edits_act_alike (ids : IdSupply) (t : Timeline) (sorted : t.IsSorted)
    (trackId : String) :
    ((∀ a ∈ t.animations, ∀ track ∈ a.tracks, track.id ≠ trackId) ∧ MissTrack ids t trackId) ∨
      ∃ place track, track.id = trackId ∧ TrackPlace.IsFirst place t track ∧
        ActOnTrack ids t place track := by
  cases hfound : t.findTrack? trackId with
  | none =>
    refine .inl ⟨fun a ha track htrack => ?_, missTrack ids hfound⟩
    simpa using List.find?_eq_none.mp hfound track (List.mem_flatMap.mpr ⟨a, ha, htrack⟩)
  | some track =>
    obtain ⟨hid, place, hplace⟩ := TrackPlace.exists_isFirst hfound
    obtain ⟨a, ha, htrack⟩ := List.mem_flatMap.mp (List.mem_of_find?_eq_some hfound)
    exact .inr ⟨place, track, hid, hplace, actOnTrack ids hplace (sorted a ha track htrack)⟩

/-- Two animations with a track of one id, and in the first of these two keyframes of one id, after
a keyframe at the negative zero. -/
private def pulseTimeline : Timeline :=
  let minusZero : Number := ⟨0x8000000000000000⟩
  let keyframes := [Keyframe.ofValue "start" minusZero (.number 0),
    .ofValue "peak" 500 (.number 1), .ofValue "peak" 500 (.number 2)]
  let glow := Track.mk "glow" "hero" "opacity" keyframes "linear"
  let dim := { glow with keyframes := [.ofValue "start" 0 (.number 1)] }
  ⟨[{ Animation.bare "pulse" "hero" .entry with tracks := [glow] },
    { Animation.bare "rest" "hero" .exit with tracks := [dim] }], 0⟩

theorem pulse_edits_act_alike :
    pulseTimeline.IsSorted ∧
    (∃ place track, track.id = "glow" ∧ track.keyframes.length = 3 ∧
      TrackPlace.IsFirst place pulseTimeline track ∧
      ActOnTrack toString pulseTimeline place track) ∧
    MissTrack toString pulseTimeline "fade" := by
  have sorted : pulseTimeline.IsSorted := by decide
  have act := track_edits_act_alike toString pulseTimeline sorted
  refine ⟨sorted, ?_, ?_⟩
  · obtain ⟨place, track, hid, hplace, edits⟩ :=
      (act "glow").resolve_left fun h => h.1 _ (.head _) _ (.head _) rfl
    have found := hid ▸ hplace.findTrack?
    obtain rfl : _ = track := Option.some.inj found
    exact ⟨place, _, hid, rfl, hplace, edits⟩
  · refine ((act "fade").resolve_right ?_).2
    rintro ⟨place, track, hid, hplace, -⟩
    have found := hid ▸ hplace.findTrack?
    cases found

end TimelineEdit

end Pagewright
