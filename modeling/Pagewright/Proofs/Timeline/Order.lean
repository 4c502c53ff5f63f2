import Pagewright.Proofs.Timeline.Edits

/-! Keyframes in ascending order of time: which sequences of edits keep every track sorted. -/

namespace Pagewright

namespace Number

variable {a b c : Number}

theorem precedes_iff : a.precedes b ↔ a.rank ≤ b.rank := by
  simp [precedes]

theorem precedes_trans (hab : a.precedes b) (hbc : b.precedes c) : a.precedes c := by
  rw [precedes_iff] at *
  omega

theorem precedes_total (a b : Number) : (a.precedes b || b.precedes a) = true := by
  rw [Bool.or_eq_true, precedes_iff, precedes_iff]
  omega

theorem zero_precedes_iff : (0 : Number).precedes a ↔ ¬ a.isNegative := by
  have zero : (0 : Number).rank = 0 := by decide
  rw [precedes_iff, zero, rank]
  cases a.isNegative with
  | true =>
    simp only [if_true, not_true, iff_false]
    omega
  | false => simp

end Number

namespace Keyframe

theorem sort_pairwise (keyframes : List Keyframe) :
    (sort keyframes).Pairwise fun a b => a.time.precedes b.time := by
  apply List.pairwise_mergeSort
  · intro a b c
    exact Number.precedes_trans
  · intro a b
    exact Number.precedes_total a.time b.time

end Keyframe

/-- The keyframes are in ascending order of time. -/
def Track.IsSorted (t : Track) : Prop := t.keyframes.Pairwise fun a b => a.time.precedes b.time

def Animation.IsSorted (a : Animation) : Prop := ∀ track ∈ a.tracks, track.IsSorted

/-- Every track of every animation is sorted. -/
def Timeline.IsSorted (t : Timeline) : Prop := ∀ a ∈ t.animations, a.IsSorted

namespace Track

variable {t : Track}

theorem isSorted_iff_times :
    t.IsSorted ↔ (t.keyframes.map Keyframe.time).Pairwise fun a b => a.precedes b := by
  rw [IsSorted, List.pairwise_map]

theorem sorted_isSorted (t : Track) : t.sorted.IsSorted := Keyframe.sort_pairwise t.keyframes

theorem addKeyframe_isSorted (k : Keyframe) (t : Track) : (t.addKeyframe k).IsSorted :=
  Keyframe.sort_pairwise (t.keyframes ++ [k])

theorem updateKeyframe_isSorted (id : String) (time : Option Number)
    (properties : List (String × Scalar)) (h : t.IsSorted) :
    (t.updateKeyframe id time properties).IsSorted := by
  cases time with
  | some time => exact Keyframe.sort_pairwise _
  | none =>
    -- Without a new time the list is not sorted again, but its times are the old ones.
    have times : (t.updateKeyframe id none properties).keyframes.map Keyframe.time =
        t.keyframes.map Keyframe.time := by
      apply map_changeFirst
      intro k
      rfl
    rw [isSorted_iff_times] at h ⊢
    rwa [times]

theorem removeKeyframe_isSorted (id : String) (h : t.IsSorted) : (t.removeKeyframe id).IsSorted :=
  List.Pairwise.sublist List.eraseP_sublist h

end Track

namespace PresetTrack

private theorem instantiate_times (ids : IdSupply) (start : Nat) (elementId : String)
    (p : PresetTrack) :
    (p.instantiate ids start elementId).keyframes.map Keyframe.time = p.samples.map Prod.fst := by
  apply List.ext_getElem
  · simp [instantiate]
  · intro i _ _
    simp [instantiate, Keyframe.ofValue]

theorem instantiate_isSorted_iff (ids : IdSupply) (start : Nat) (elementId : String)
    (p : PresetTrack) : (p.instantiate ids start elementId).IsSorted ↔
      (p.samples.map Prod.fst).Pairwise fun a b => a.precedes b := by
  rw [Track.isSorted_iff_times, instantiate_times]

theorem mem_instantiateAll {ids : IdSupply} {start : Nat} {elementId : String}
    {forms : List PresetTrack} {track : Track}
    (h : track ∈ instantiateAll ids start elementId forms) :
    ∃ form ∈ forms, ∃ start, track = form.instantiate ids start elementId := by
  induction forms generalizing start with
  | nil => cases h
  | cons form rest ih =>
    rcases List.mem_cons.mp h with rfl | h
    · exact ⟨form, List.mem_cons_self, start, rfl⟩
    · obtain ⟨other, hm, found⟩ := ih h
      exact ⟨other, List.mem_cons_of_mem form hm, found⟩

/-- The track that a property starts with is sorted, except over a duration of negative sign. -/
theorem rampTrack_isSorted_iff (ids : IdSupply) (start : Nat) (elementId property : String)
    (duration : Number) :
    ((rampTrack property duration).instantiate ids start elementId).IsSorted ↔
      ¬ duration.isNegative := by
  have times : (rampTrack property duration).samples.map Prod.fst = [0, duration] := rfl
  rw [instantiate_isSorted_iff, times, List.pairwise_pair, Number.zero_precedes_iff]

end PresetTrack

namespace Preset

/-- The samples of every built-in animation are in ascending order of time. -/
theorem samples_ascend : ∀ preset ∈ all, ∀ form ∈ preset.tracks,
    (form.samples.map Prod.fst).Pairwise fun a b => a.precedes b := by
  decide

end Preset

end Pagewright
