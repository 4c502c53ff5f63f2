import Mathlib.Data.List.Basic
import Pagewright.Animation.Motion
import Pagewright.Animation.Script
import Pagewright.Proofs.Animation.Buckets

/-!
Where a track ends. Motion props, scripts and stylesheets each go through the keyframes in a way of
their own; they take the same last value of a track that no other track interferes with.
-/

namespace Pagewright

namespace Animation

/-- The tracks of an animation, with a track among them that runs from time zero, has a value
throughout, does not meet the duration before its last keyframe, and shares neither property nor
motion key with another. No track drives the composite transform as a whole. -/
structure HasClearEnd (a : Animation) (before : List Track) (t : Track) (after : List Track) :
    Prop where
  tracks_eq : a.tracks = before ++ t :: after
  no_transform : ∀ u ∈ a.tracks, u.property ≠ "transform"
  known : t.target ≠ .unknownChannel
  apart : ∀ u ∈ before ++ after, u.property ≠ t.property ∧ u.motionKey? ≠ t.motionKey?
  valued : ∀ k ∈ t.keyframes, k.value?.isSome
  starts : ∃ first, t.keyframes.head? = some first ∧ first.time.same 0
  ends_last : ∀ k ∈ t.keyframes.dropLast, ¬ k.time.same a.duration

/-- All renderings end the track at an index with a value, which a stylesheet declares at the
percentage of a time. Scale is a number in motion props and scripts. -/
structure EndsWith (a : Animation) (index : Nat) (t : Track) (time : Number) (v : Scalar) :
    Prop where
  motion : ∃ key, t.motionKey? = some key ∧ a.motionProps.variants.animate.get? key =
    some (if t.target = .channel .scale then v.toNumber?.elim .null .ofNumber else v.toJson)
  script : ∃ key step, t.scriptKey? = some key ∧ a.scriptSteps[index]? = some step ∧
    step.values.entries =
      [(key, if t.target = .channel .scale then v.toNumber?.elim "NaN" Number.plainText
        else v.shown)]
  stylesheet : ∃ d, a.buckets.lookup (percentOf time a.duration) = some d ∧
    (∀ name, t.target = .property name → d.get? name = some v.shown) ∧
    ∀ c, t.target = .channel c →
      let calls := callsOf (a.samplesAt (percentOf time a.duration))
      d.get? "transform" = some (joinWith " " (calls.map Prod.snd)) ∧
      (calls.filter fun call => call.1.property = t.property).getLast? =
        some (t, c.function ++ "(" ++ v.shown ++ ")")

end Animation

namespace Variants

theorem animate_get?_foldl_addTrack {duration : Number} {tracks : List Track} {key : String}
    (h : ∀ u ∈ tracks, u.motionKey? ≠ some key) (v : Variants) :
    (tracks.foldl (addTrack duration) v).animate.get? key = v.animate.get? key := by
  induction tracks generalizing v with
  | nil => rfl
  | cons u rest ih =>
    obtain ⟨hu, hrest⟩ := List.forall_mem_cons.mp h
    rw [List.foldl_cons, ih hrest, addTrack]
    split
    · next first last other _ _ hother =>
      have hne : other ≠ key := fun he => hu (by rw [hother, he])
      rw [Dict.get?_insert, if_neg hne]
    · rfl

end Variants

namespace Dict

/-- Writing to one key over and over leaves the value written last. -/
theorem entries_foldl_insert {α β : Type} (key : String) (f : β → α) (values : List β) (last : β) :
    ((values ++ [last]).foldl (fun d value => d.insert key (f value)) empty).entries =
      [(key, f last)] := by
  have single : ((values.foldl (fun d value => d.insert key (f value)) empty).entries = []) ∨
      ∃ old,
        (values.foldl (fun d value => d.insert key (f value)) empty).entries = [(key, old)] := by
    induction values using List.reverseRecOn with
    | nil => exact .inl rfl
    | append_singleton before value ih =>
      refine .inr ⟨f value, ?_⟩
      rw [List.foldl_append]
      change insertEntry key (f value) _ = _
      rcases ih with h | ⟨old, h⟩ <;> simp [h, insertEntry]
  rw [List.foldl_append]
  change insertEntry key (f last) _ = _
  rcases single with h | ⟨old, h⟩ <;> simp [h, insertEntry]

end Dict

namespace Animation.HasClearEnd

variable {a : Animation} {before after : List Track} {t : Track}

/-- The keyframes end with one that has a value. -/
theorem exists_last (h : a.HasClearEnd before t after) :
    ∃ front last v, t.keyframes = front ++ [last] ∧ last.value? = some v := by
  rcases List.eq_nil_or_concat' t.keyframes with hnil | ⟨front, last, hlast⟩
  · obtain ⟨first, hfirst, -⟩ := h.starts
    rw [hnil] at hfirst
    cases hfirst
  · obtain ⟨v, hv⟩ := Option.isSome_iff_exists.mp (h.valued last (by simp [hlast]))
    exact ⟨front, last, v, hlast, hv⟩

theorem exists_motionKey (h : a.HasClearEnd before t after) : ∃ key, t.motionKey? = some key := by
  have hknown := h.known
  rw [Track.motionKey?]
  cases ht : t.target with
  | property name => exact ⟨name, rfl⟩
  | channel c => exact ⟨c.motionKey, rfl⟩
  | unknownChannel => exact absurd ht hknown

theorem startKeyframe?_eq (h : a.HasClearEnd before t after) :
    ∃ first, t.startKeyframe? = some first := by
  obtain ⟨first, hfirst, hzero⟩ := h.starts
  obtain ⟨rest, hrest⟩ := List.head?_eq_some_iff.mp hfirst
  refine ⟨first, ?_⟩
  rw [Track.startKeyframe?, hrest]
  exact List.find?_cons_of_pos hzero

variable {front : List Keyframe} {last : Keyframe} {v : Scalar}

theorem endKeyframe?_eq (h : a.HasClearEnd before t after) (hlast : t.keyframes = front ++ [last]) :
    t.endKeyframe? a.duration = some last := by
  have hfront : front.find? (fun k => k.time.same a.duration) = none := by
    have hends := h.ends_last
    rw [hlast, List.dropLast_concat] at hends
    exact List.find?_eq_none.mpr hends
  rw [Track.endKeyframe?, hlast, List.find?_append, hfront, Option.none_or, List.getLast?_concat,
    List.find?_singleton]
  split <;> rfl

/-- Later tracks do not write to the motion key, so the state after the animation keeps it. -/
theorem motion (h : a.HasClearEnd before t after) (hlast : t.keyframes = front ++ [last])
    (hv : last.value? = some v) :
    ∃ key, t.motionKey? = some key ∧ a.motionProps.variants.animate.get? key =
      some (if t.target = .channel .scale then v.toNumber?.elim .null .ofNumber else v.toJson) := by
  obtain ⟨key, hkey⟩ := h.exists_motionKey
  obtain ⟨first, hfirst⟩ := h.startKeyframe?_eq
  have hbehind : ∀ u ∈ after, u.motionKey? ≠ some key := fun u hu =>
    hkey ▸ (h.apart u (List.mem_append_right _ hu)).2
  refine ⟨key, hkey, ?_⟩
  change (a.tracks.foldl (Variants.addTrack a.duration) ⟨.empty, .empty⟩).animate.get? key = _
  rw [h.tracks_eq, List.foldl_append, List.foldl_cons,
    Variants.animate_get?_foldl_addTrack hbehind, Variants.addTrack, hfirst,
    h.endKeyframe?_eq hlast, hkey]
  dsimp only
  rw [Dict.get?_insert, if_pos rfl, Track.motionValue, hv]

/-- The step of a track has its last value only. -/
theorem script (h : a.HasClearEnd before t after) (hlast : t.keyframes = front ++ [last])
    (hv : last.value? = some v) :
    ∃ key step, t.scriptKey? = some key ∧ a.scriptSteps[before.length]? = some step ∧
      step.values.entries =
        [(key, if t.target = .channel .scale then v.toNumber?.elim "NaN" Number.plainText
          else v.shown)] := by
  have hkey : ∃ key, t.scriptKey? = some key := by
    rw [Track.scriptKey?]
    split
    · exact ⟨_, rfl⟩
    · exact h.exists_motionKey
  obtain ⟨key, hkey⟩ := hkey
  have hvalue : t.scriptValue v =
      if t.target = .channel .scale then v.toNumber?.elim "NaN" Number.plainText else v.shown := by
    have hnan : Number.notANumber.plainText = "NaN" := by decide
    rw [Track.scriptValue]
    cases v.toNumber? with
    | none => rw [Option.getD_none, hnan, Option.elim_none]
    | some n => rfl
  refine ⟨key, ⟨t.scriptValues, a.duration / 1000, a.delay / 1000, t.scriptEase⟩, hkey, ?_, ?_⟩
  · simp [Animation.scriptSteps, h.tracks_eq]
  · change t.scriptValues.entries = _
    rw [← hvalue, Track.scriptValues, hkey, hlast, List.filterMap_append,
      List.filterMap_cons_some hv, List.filterMap_nil]
    exact Dict.entries_foldl_insert key t.scriptValue _ v

/-- Where the last keyframe falls, its sample stands before those of later tracks only. -/
theorem exists_samplesAt (h : a.HasClearEnd before t after) (hlast : t.keyframes = front ++ [last])
    (hv : last.value? = some v) :
    ∃ earlier later, a.samplesAt (percentOf last.time a.duration) =
      earlier ++ (t, last, v) :: later ∧ ∀ s ∈ later, s.1 ∈ after := by
  have hown : t.samples = (front.filterMap fun k => k.value?.map (t, k, ·)) ++ [(t, last, v)] := by
    simp [Track.samples, hlast, hv]
  have hsamples : a.samples = before.flatMap Track.samples ++
      ((front.filterMap fun k => k.value?.map (t, k, ·)) ++ (t, last, v) ::
        after.flatMap Track.samples) := by
    rw [a.samples_eq, h.tracks_eq, List.flatMap_append, List.flatMap_cons, hown, List.append_assoc,
      List.singleton_append]
  rw [Animation.samplesAt, hsamples, List.filter_append, List.filter_append,
    List.filter_cons_of_pos (by simp), ← List.append_assoc]
  refine ⟨_, _, rfl, fun s hs => ?_⟩
  obtain ⟨u, hu, hsample⟩ := List.mem_flatMap.mp (List.mem_filter.mp hs).1
  rw [Track.fst_of_mem_samples hsample]
  exact hu

/-- Behind the last sample of a track only other tracks declare something. -/
theorem stylesheet (h : a.HasClearEnd before t after) (hlast : t.keyframes = front ++ [last])
    (hv : last.value? = some v) :
    ∃ d, a.buckets.lookup (percentOf last.time a.duration) = some d ∧
      (∀ name, t.target = .property name → d.get? name = some v.shown) ∧
      ∀ c, t.target = .channel c →
        let calls := callsOf (a.samplesAt (percentOf last.time a.duration))
        d.get? "transform" = some (joinWith " " (calls.map Prod.snd)) ∧
        (calls.filter fun call => call.1.property = t.property).getLast? =
          some (t, c.function ++ "(" ++ v.shown ++ ")") := by
  obtain ⟨earlier, later, hsplit, hlater⟩ := h.exists_samplesAt hlast hv
  have hbehind : ∀ s ∈ later, s.1.property ≠ t.property := fun s hs =>
    (h.apart s.1 (List.mem_append_right _ (hlater s hs))).1
  refine ⟨declareAll (a.samplesAt (percentOf last.time a.duration)) .empty, ?_, ?_, ?_⟩
  · rw [a.lookup_buckets, if_neg (hsplit ▸ List.append_ne_nil_of_right_ne_nil _ (List.cons_ne_nil _ _))]
  · intro name hname
    have hproperty := Track.property_of_target hname
    have hkey : name ≠ "transform" := hproperty ▸ h.no_transform t (by simp [h.tracks_eq])
    have huntouched : ∀ s ∈ later, s.1.target ≠ .property name := fun s hs htarget =>
      hbehind s hs ((Track.property_of_target htarget).trans hproperty.symm)
    rw [hsplit, declareAll_append]
    change (declareAll later (t.declare v.shown _)).get? name = _
    rw [get?_declareAll_of_untouched hkey huntouched, t.get?_declare _ _ _ hkey, if_pos hname]
  · intro c hc
    have hcall : callsOf [(t, last, v)] = [(t, c.function ++ "(" ++ v.shown ++ ")")] := by
      simp [callsOf, Track.call?, hc]
    have hcalls : callsOf (a.samplesAt (percentOf last.time a.duration)) =
        callsOf earlier ++ (t, c.function ++ "(" ++ v.shown ++ ")") :: callsOf later := by
      rw [hsplit, ← List.singleton_append, callsOf_append, callsOf_append, hcall,
        List.singleton_append]
    have hother : (callsOf later).filter (fun call => call.1.property = t.property) = [] := by
      refine List.filter_eq_nil_iff.mpr fun call hm => ?_
      obtain ⟨s, hs, hcaller⟩ := exists_of_mem_callsOf hm
      simpa [← hcaller] using hbehind s hs
    have hplain : ∀ s ∈ a.samplesAt (percentOf last.time a.duration),
        s.1.target ≠ .property "transform" := fun s hs htarget =>
      h.no_transform s.1 (Animation.fst_mem_of_mem_samplesAt hs) (Track.property_of_target htarget)
    constructor
    · rw [get?_declareAll_transform hplain, if_neg]
      rw [hcalls]
      exact List.append_ne_nil_of_right_ne_nil _ (List.cons_ne_nil _ _)
    · rw [hcalls, List.filter_append, List.filter_cons_of_pos (by simp), hother,
        List.getLast?_concat]

end Animation.HasClearEnd

namespace Animation

/-- Motion props, scripts and stylesheets agree on where a track ends, as long as the end is clear:
its last keyframe has the value that all of them take. -/
theorem ends_agree {a : Animation} {before after : List Track} {t : Track}
    (h : a.HasClearEnd before t after) :
    ∃ last v, t.keyframes.getLast? = some last ∧ last.value? = some v ∧
      a.EndsWith before.length t last.time v := by
  obtain ⟨front, last, v, hlast, hv⟩ := h.exists_last
  refine ⟨last, v, ?_, hv, ⟨h.motion hlast hv, h.script hlast hv, h.stylesheet hlast hv⟩⟩
  rw [hlast, List.getLast?_concat]

private def turnTrack : Track :=
  ⟨"turn", "card", "transform.rotate",
    [.ofValue "a" 0 (.text "0deg"), .ofValue "b" 1000 (.text "90deg")], ""⟩

/-- Two of the keyframes fall at the same percentage of a second. -/
private def growTrack : Track :=
  ⟨"grow", "card", "transform.scale",
    [.ofValue "c" 0 (.number 0), .ofValue "d" 996 (.number 2),
      .ofValue "e" 1000 (.text "1.5x")], ""⟩

private def fadeTrack : Track :=
  ⟨"fade", "card", "opacity", [.ofValue "f" 0 (.number 0), .ofValue "g" 1000 (.number 1)], ""⟩

private def cardAnimation : Animation :=
  ⟨"reveal", "card", "Reveal", .entry, [turnTrack, growTrack, fadeTrack], 1000, 0⟩

theorem card_ends_agree : cardAnimation.HasClearEnd [turnTrack] growTrack [fadeTrack] ∧
    cardAnimation.EndsWith 1 growTrack 1000 (.text "1.5x") := by
  have h : cardAnimation.HasClearEnd [turnTrack] growTrack [fadeTrack] :=
    { tracks_eq := rfl
      no_transform := by decide
      known := by decide
      apart := by decide
      valued := by decide
      starts := ⟨_, rfl, by decide⟩
      ends_last := by decide }
  obtain ⟨last, v, hlast, hv, hends⟩ := ends_agree h
  obtain rfl := Option.some.inj hlast
  obtain rfl := Option.some.inj hv
  exact ⟨h, hends⟩

end Animation

end Pagewright
