import Mathlib.Data.List.Nodup
import Mathlib.Data.List.Perm.Subperm
import Pagewright.Proofs.Animation.Declarations

/-!
Calls of the composite transform. Unlike the value of a property, a call is never replaced: a
channel is applied twice where two values of its track meet at one percentage.
-/

namespace Pagewright

private theorem joinWith_blank {pieces : List String} (h : pieces ≠ []) :
    (joinWith " " pieces).toList ++ [' '] = pieces.flatMap fun piece => piece.toList ++ [' '] := by
  cases pieces using List.reverseRec with
  | nil => exact absurd rfl h
  | append_singleton front last =>
    rw [toList_joinWith_concat, List.flatMap_append, List.flatMap_singleton, List.append_assoc]
    rfl

/-- A call as it stands in a composite transform, with the blank before the next one. -/
private def spaced (call : Channel × Scalar) : List Char := (call.1.call call.2).toList ++ [' ']

private theorem flatMap_spaced {calls : List (Channel × Scalar)} {text : String}
    (h : compositeOf calls = some text) : calls.flatMap spaced = text.toList ++ [' '] := by
  rw [compositeOf] at h
  split at h
  · cases h
  · next hne =>
    obtain rfl := Option.some.inj h
    rw [joinWith_blank (List.map_eq_nil_iff.not.mpr hne), List.flatMap_map]
    rfl

/-- Calls with the text of calls among which they are, are all of those. -/
private theorem perm_of_compositeOf_eq {calls all : List (Channel × Scalar)}
    (hsub : calls.Subperm all) (h : compositeOf all = compositeOf calls) : all.Perm calls := by
  obtain ⟨kept, hkept, hsublist⟩ := hsub
  obtain ⟨rest, hrest⟩ := hsublist.exists_perm_append
  have hall : all.Perm (calls ++ rest) := hrest.trans (hkept.append_right rest)
  cases htext : compositeOf calls with
  | none =>
    rw [htext] at h
    rw [compositeOf_eq_none_iff.mp h, compositeOf_eq_none_iff.mp htext]
  | some text =>
    -- The text is as long as its calls are together, so there are no more of them.
    have hlength := (hall.flatMap_right spaced).length_eq
    rw [List.flatMap_append, flatMap_spaced (h.trans htext), flatMap_spaced htext,
      @List.length_append _ (text.toList ++ [' '])] at hlength
    have hnil : rest.flatMap spaced = [] := List.eq_nil_of_length_eq_zero (by omega)
    have hrest : rest = [] := by
      rcases rest with _ | ⟨call, more⟩
      · rfl
      · simp [spaced] at hnil
    rwa [hrest, List.append_nil] at hall

namespace Animation

/-- No track drives the composite transform as a whole, and no two tracks drive the same channel
of it. -/
structure DrivesChannelsOnce (a : Animation) : Prop where
  transform : a.LeavesTransform
  channels : (a.tracks.filterMap Track.channel?).Nodup

/-- The composite transform among some declarations has no channel twice, and each channel with
the last value at the percentage. -/
def AppliesOnce (a : Animation) (p : Int) (d : Declarations) : Prop :=
  ∃ calls : List (Channel × Scalar), d.get? "transform" = compositeOf calls ∧
    (calls.map Prod.fst).Nodup ∧
    ∀ call ∈ calls, (a.valuesOf (.channel call.1) p).getLast? = some call.2

variable {a : Animation} {p : Int} {d : Declarations}

private theorem mem_callsAt {call : Channel × Scalar} :
    call ∈ a.callsAt p ↔ call.2 ∈ a.valuesOf (.channel call.1) p := by
  obtain ⟨c, v⟩ := call
  simp only [callsAt, valuesOf, List.mem_flatMap, ← Track.channel?_eq_some_iff]
  refine exists_congr fun t => and_congr_right fun _ => ?_
  cases t.channel? with
  | none => simp
  | some other => by_cases hc : other = c <;> simp [hc]

private theorem appliesOnce_iff (htransform : a.LeavesTransform) (h : (p, d) ∈ a.buckets) :
    a.AppliesOnce p d ↔ ((a.callsAt p).map Prod.fst).Nodup := by
  rw [AppliesOnce, get?_transform h htransform]
  constructor
  · rintro ⟨calls, htext, hnodup, hlast⟩
    have hsub : calls ⊆ a.callsAt p := fun call hm =>
      mem_callsAt.mpr (List.mem_of_getLast? (hlast call hm))
    have hperm := perm_of_compositeOf_eq (List.subperm_of_subset hnodup.of_map hsub) htext
    exact (hperm.map Prod.fst).nodup_iff.mpr hnodup
  · intro hnodup
    refine ⟨a.callsAt p, rfl, hnodup, fun call hm => ?_⟩
    have hvalue := mem_callsAt.mp hm
    obtain ⟨v, hv⟩ := Option.isSome_iff_exists.mp
      (List.getLast?_isSome.mpr (List.ne_nil_of_mem hvalue))
    -- The last value is that of a call, too, and a channel has only one.
    have hlast : (call.1, v) ∈ a.callsAt p := mem_callsAt.mpr (List.mem_of_getLast? hv)
    rw [hv, ← List.inj_on_of_nodup_map hnodup hlast hm rfl]

private theorem nodup_channels_iff (h : a.DrivesChannelsOnce) :
    ((a.callsAt p).map Prod.fst).Nodup ↔
      ∀ t ∈ a.tracks, t.channel?.isSome → (t.percents a.duration).count p ≤ 1 := by
  have hchannels : (a.callsAt p).map Prod.fst = a.tracks.flatMap fun t =>
      t.channel?.elim [] (List.replicate ((t.percents a.duration).count p)) := by
    rw [callsAt, List.map_flatMap]
    refine List.flatMap_congr fun t _ => ?_
    cases t.channel? <;> simp [Function.comp_def, Track.length_valuesAt]
  have hapart := List.pairwise_filterMap.mp h.channels
  rw [hchannels, List.nodup_flatMap, and_iff_left]
  · refine forall₂_congr fun t _ => ?_
    cases t.channel? <;> simp [List.nodup_replicate]
  · refine hapart.imp fun {t u} hne => ?_
    cases ht : t.channel? with
    | none => simp [Function.onFun, ht]
    | some c =>
      cases hu : u.channel? with
      | none => simp [Function.onFun, hu]
      | some other =>
        have hc : c ≠ other := hne c ht other hu
        intro x hx hy
        simp only [ht, hu, Option.elim_some] at hx hy
        exact hc ((List.eq_of_mem_replicate hx).symm.trans (List.eq_of_mem_replicate hy))

/-- Where no track shares a channel with another, the composite transforms apply every channel once
exactly if no two values of a channel fall at the same percentage. -/
theorem applies_channels_once_iff (h : a.DrivesChannelsOnce) :
    (∀ bucket ∈ a.buckets, a.AppliesOnce bucket.1 bucket.2) ↔
      ∀ t ∈ a.tracks, t.channel?.isSome → (t.percents a.duration).Nodup := by
  have hbucket : (∀ bucket ∈ a.buckets, a.AppliesOnce bucket.1 bucket.2) ↔
      ∀ p ∈ a.buckets.map Prod.fst, ∀ t ∈ a.tracks, t.channel?.isSome →
        (t.percents a.duration).count p ≤ 1 := by
    rw [List.forall_mem_map]
    exact forall₂_congr fun bucket hm =>
      (appliesOnce_iff h.transform hm).trans (nodup_channels_iff h)
  rw [hbucket]
  constructor
  · intro hcount t ht hchannel
    refine List.nodup_iff_count_le_one.mpr fun p => ?_
    by_cases hp : p ∈ t.percents a.duration
    · exact hcount p (mem_map_fst_buckets.mpr ⟨t, ht, hp⟩) t ht hchannel
    · rw [List.count_eq_zero_of_not_mem hp]
      exact Nat.zero_le 1
  · intro hnodup p _ t ht hchannel
    exact List.nodup_iff_count_le_one.mp (hnodup t ht hchannel) p

/-- The last two keyframes fall at the end of a second, to the percent. -/
private def spinTrack : Track :=
  ⟨"spin", "badge", "transform.rotate",
    [.ofValue "a" 0 (.text "0deg"), .ofValue "b" 996 (.text "30deg"),
      .ofValue "c" 1000 (.text "90deg")], ""⟩

private def zoomTrack : Track :=
  ⟨"zoom", "badge", "transform.scale", [.ofValue "d" 0 (.number 0), .ofValue "e" 1000 (.number 1)],
    ""⟩

private def blurTrack : Track :=
  ⟨"blur", "badge", "filter",
    [.ofValue "f" 996 (.text "blur(1px)"), .ofValue "g" 1000 (.text "none")], ""⟩

private def badgeWith (tracks : List Track) : Animation :=
  ⟨"reveal", "badge", "Reveal", .entry, tracks, 1000, 0⟩

theorem channel_applied_twice : (badgeWith [spinTrack, zoomTrack]).DrivesChannelsOnce ∧
    ∃ bucket ∈ (badgeWith [spinTrack, zoomTrack]).buckets,
      bucket.2.get? "transform" = some "rotate(30deg) rotate(90deg) scale(1)" ∧
      ¬ (badgeWith [spinTrack, zoomTrack]).AppliesOnce bucket.1 bucket.2 := by
  have h : (badgeWith [spinTrack, zoomTrack]).DrivesChannelsOnce :=
    { transform := by decide
      channels := by decide }
  have hbucket : (100, Dict.ofList [("transform", "rotate(30deg) rotate(90deg) scale(1)")]) ∈
      (badgeWith [spinTrack, zoomTrack]).buckets := by decide +kernel
  refine ⟨h, _, hbucket, rfl, ?_⟩
  rw [appliesOnce_iff h.transform hbucket]
  decide +kernel

theorem badge_applies_channels_once : (badgeWith [zoomTrack, blurTrack]).DrivesChannelsOnce ∧
    ∀ bucket ∈ (badgeWith [zoomTrack, blurTrack]).buckets,
      (badgeWith [zoomTrack, blurTrack]).AppliesOnce bucket.1 bucket.2 := by
  have h : (badgeWith [zoomTrack, blurTrack]).DrivesChannelsOnce :=
    { transform := by decide
      channels := by decide }
  exact ⟨h, (applies_channels_once_iff h).mpr (by decide)⟩

end Animation

end Pagewright
