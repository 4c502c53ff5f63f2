import Mathlib.Data.List.Basic
import Pagewright.Proofs.Animation.Buckets

/-!
Where the values of an animation go. There is a bucket for exactly the percentages at which
keyframes with a value fall, and it has exactly their values: the last one of every property, and of
the channels all of them, as the calls of the composite transform.
-/

namespace Pagewright

namespace Track

/-- The percentages of a duration at which the keyframes with a value fall. -/
def percents (t : Track) (duration : Number) : List Int :=
  (t.keyframes.filter fun k => k.value?.isSome).map fun k => percentOf k.time duration

/-- The values of the keyframes at a percentage of a duration, in order. -/
def valuesAt (t : Track) (duration : Number) (p : Int) : List Scalar :=
  (t.keyframes.filter fun k => percentOf k.time duration = p).filterMap Keyframe.value?

/-- The transform channel that a track drives, if it is a known one. -/
def channel? (t : Track) : Option Channel :=
  match t.target with
  | .channel c => some c
  | _ => none

variable {t : Track} {duration : Number} {p : Int}

theorem channel?_eq_some_iff {c : Channel} : t.channel? = some c ↔ t.target = .channel c := by
  rw [channel?]
  cases t.target <;> simp

theorem length_valuesAt : (t.valuesAt duration p).length = (t.percents duration).count p := by
  rw [valuesAt, percents]
  induction t.keyframes with
  | nil => rfl
  | cons k rest ih =>
    cases hv : k.value? <;> by_cases hp : percentOf k.time duration = p <;> simp [hv, hp, ih]

theorem valuesAt_eq_nil_iff : t.valuesAt duration p = [] ↔ p ∉ t.percents duration := by
  rw [← List.length_eq_zero_iff, length_valuesAt, List.count_eq_zero]

/-- The samples of a track at a percentage have its values there. -/
private theorem filterMap_samples {β : Type} (f : Track → Scalar → Option β) :
    (t.samples.filter fun s => percentOf s.2.1.time duration = p).filterMap
      (fun s => f s.1 s.2.2) = (t.valuesAt duration p).filterMap (f t) := by
  rw [samples, valuesAt]
  induction t.keyframes with
  | nil => rfl
  | cons k rest ih =>
    cases hv : k.value? with
    | none => by_cases hp : percentOf k.time duration = p <;> simp [hv, hp, ih]
    | some v =>
      by_cases hp : percentOf k.time duration = p
      · simp [hv, hp, List.filterMap_cons, ih]
      · simp [hv, hp, ih]

end Track

/-- The call that applies a value to a channel. -/
def Channel.call (c : Channel) (value : Scalar) : String :=
  c.function ++ "(" ++ value.shown ++ ")"

/-- The composite transform of some calls, if there are any. -/
def compositeOf (calls : List (Channel × Scalar)) : Option String :=
  if calls = [] then none else some (joinWith " " (calls.map fun call => call.1.call call.2))

theorem compositeOf_eq_none_iff {calls : List (Channel × Scalar)} :
    compositeOf calls = none ↔ calls = [] := by
  rw [compositeOf]
  split <;> simp [*]

namespace Animation

/-- The values at a percentage of the tracks with a target, track by track. -/
def valuesOf (a : Animation) (target : Target) (p : Int) : List Scalar :=
  a.tracks.flatMap fun t => if t.target = target then t.valuesAt a.duration p else []

/-- The values at a percentage of the tracks of channels, track by track. -/
def callsAt (a : Animation) (p : Int) : List (Channel × Scalar) :=
  a.tracks.flatMap fun t =>
    match t.channel? with
    | some c => (t.valuesAt a.duration p).map (c, ·)
    | none => []

/-- No track drives the composite transform as a whole. -/
def LeavesTransform (a : Animation) : Prop := ∀ t ∈ a.tracks, t.property ≠ "transform"

instance (a : Animation) : Decidable a.LeavesTransform :=
  inferInstanceAs (Decidable (∀ t ∈ a.tracks, t.property ≠ "transform"))

/-- Some declarations hold the samples of an animation at a percentage. A property is declared if a
track of it has a value there, and has the last such value; the transform is declared if a track of
a channel has a value there, and has the calls of all such values. -/
structure Gathers (a : Animation) (p : Int) (d : Declarations) : Prop where
  declared : ∀ name ≠ "transform", (d.get? name).isSome ↔
    ∃ t ∈ a.tracks, t.target = .property name ∧ p ∈ t.percents a.duration
  last : ∀ name ≠ "transform",
    d.get? name = (a.valuesOf (.property name) p).getLast?.map Scalar.shown
  composed : a.LeavesTransform → ((d.get? "transform").isSome ↔
    ∃ t ∈ a.tracks, t.channel?.isSome ∧ p ∈ t.percents a.duration)
  composite : a.LeavesTransform → d.get? "transform" = compositeOf (a.callsAt p)

variable {a : Animation} {p : Int} {d : Declarations}

private theorem filterMap_samplesAt {β : Type} (a : Animation) (p : Int)
    (f : Track → Scalar → Option β) : (a.samplesAt p).filterMap (fun s => f s.1 s.2.2) =
      a.tracks.flatMap fun t => (t.valuesAt a.duration p).filterMap (f t) := by
  rw [samplesAt, samples_eq, List.filter_flatMap, List.filterMap_flatMap]
  exact List.flatMap_congr fun t _ => Track.filterMap_samples f

theorem samplesAt_eq_nil_iff :
    a.samplesAt p = [] ↔ ¬ ∃ t ∈ a.tracks, p ∈ t.percents a.duration := by
  have hvalues : (a.samplesAt p).map (fun s => s.2.2) =
      a.tracks.flatMap fun t => t.valuesAt a.duration p := by
    simpa using a.filterMap_samplesAt p fun _ v => some v
  rw [← List.map_eq_nil_iff, hvalues, List.flatMap_eq_nil_iff]
  simp [Track.valuesAt_eq_nil_iff]

theorem mem_map_fst_buckets :
    p ∈ a.buckets.map Prod.fst ↔ ∃ t ∈ a.tracks, p ∈ t.percents a.duration := by
  have hlookup : p ∈ a.buckets.map Prod.fst ↔ (a.buckets.lookup p).isSome := by
    rw [List.lookup_isSome_iff]
    simp [@eq_comm Int p]
  rw [hlookup, lookup_buckets, ← not_iff_not, ← samplesAt_eq_nil_iff]
  split <;> simp [*]

theorem eq_declareAll_of_mem_buckets (h : (p, d) ∈ a.buckets) :
    d = declareAll (a.samplesAt p) .empty := by
  have hd := a.buckets_ascend.lookup_of_mem h
  rw [lookup_buckets] at hd
  split at hd
  · cases hd
  · exact (Option.some.inj hd).symm

private theorem valuesOf_eq_nil_iff {target : Target} :
    a.valuesOf target p = [] ↔
      ¬ ∃ t ∈ a.tracks, t.target = target ∧ p ∈ t.percents a.duration := by
  simp [valuesOf, List.flatMap_eq_nil_iff, Track.valuesAt_eq_nil_iff]

private theorem callsAt_eq_nil_iff :
    a.callsAt p = [] ↔
      ¬ ∃ t ∈ a.tracks, t.channel?.isSome ∧ p ∈ t.percents a.duration := by
  rw [callsAt, List.flatMap_eq_nil_iff, not_exists]
  refine forall_congr' fun t => ?_
  cases t.channel? <;> simp [Track.valuesAt_eq_nil_iff]

private theorem map_snd_callsOf (a : Animation) (p : Int) :
    (callsOf (a.samplesAt p)).map Prod.snd = (a.callsAt p).map fun call => call.1.call call.2 := by
  have htexts : (callsOf (a.samplesAt p)).map Prod.snd =
      (a.samplesAt p).filterMap fun s => s.1.call? s.2.2 := by
    simp [callsOf, List.map_filterMap, Function.comp_def]
  rw [htexts, filterMap_samplesAt, callsAt, List.map_flatMap]
  refine List.flatMap_congr fun t _ => ?_
  have hcall : t.call? = fun v => t.channel?.map (·.call v) := by
    funext v
    rw [Track.call?, Track.channel?]
    cases t.target <;> rfl
  rw [hcall]
  cases t.channel? <;> simp [Function.comp_def]

private theorem get?_property (h : (p, d) ∈ a.buckets) {name : String}
    (hname : name ≠ "transform") :
    d.get? name = (a.valuesOf (.property name) p).getLast?.map Scalar.shown := by
  have hvalues : ((a.samplesAt p).filterMap fun s =>
      if s.1.target = .property name then some s.2.2.shown else none) =
      (a.valuesOf (.property name) p).map Scalar.shown := by
    rw [a.filterMap_samplesAt p fun t v =>
      if t.target = .property name then some v.shown else none, valuesOf, List.map_flatMap]
    refine List.flatMap_congr fun t _ => ?_
    by_cases htarget : t.target = .property name <;> simp [htarget]
  rw [eq_declareAll_of_mem_buckets h, get?_declareAll hname, hvalues, List.getLast?_map]
  exact Option.or_none

theorem get?_transform (h : (p, d) ∈ a.buckets) (htransform : a.LeavesTransform) :
    d.get? "transform" = compositeOf (a.callsAt p) := by
  have hplain : ∀ s ∈ a.samplesAt p, s.1.target ≠ .property "transform" := fun s hs htarget =>
    htransform s.1 (fst_mem_of_mem_samplesAt hs) (Track.property_of_target htarget)
  have hnone : callsOf (a.samplesAt p) = [] ↔ a.callsAt p = [] := by
    rw [← List.map_eq_nil_iff, map_snd_callsOf, List.map_eq_nil_iff]
  rw [eq_declareAll_of_mem_buckets h, get?_declareAll_transform hplain, map_snd_callsOf,
    compositeOf]
  simp only [hnone]

theorem gathers_of_mem_buckets (h : (p, d) ∈ a.buckets) : a.Gathers p d where
  declared name hname := by
    rw [get?_property h hname, ← not_iff_not, ← valuesOf_eq_nil_iff]
    simp
  last _ hname := get?_property h hname
  composed htransform := by
    rw [get?_transform h htransform, ← not_iff_not, ← callsAt_eq_nil_iff, ← compositeOf_eq_none_iff,
      Option.not_isSome_iff_eq_none]
  composite := get?_transform h

end Animation

end Pagewright
