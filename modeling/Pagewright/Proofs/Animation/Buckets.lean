import Mathlib.Data.List.Induction
import Pagewright.Animation.Stylesheet
import Pagewright.Proofs.Dict

/-! What a stylesheet declares at a percentage: the samples that fall there, track by track, with
the last value of a property and all calls of transform channels. -/

namespace Pagewright

/-- Buckets are in ascending order of percentage. -/
def Ascends (buckets : List (Int × Declarations)) : Prop := buckets.Pairwise fun a b => a.1 < b.1

namespace Ascends

variable {buckets rest : List (Int × Declarations)} {p q : Int} {d : Declarations}
  {f : Declarations → Declarations}

private theorem lookup_cons_if (p q : Int) (d : Declarations) (rest : List (Int × Declarations)) :
    ((q, d) :: rest).lookup p = if p = q then some d else rest.lookup p := by
  by_cases h : p = q
  · simp [h]
  · simp [List.lookup_cons, beq_eq_false_iff_ne.mpr h, h]

private theorem lookup_eq_none (h : Ascends ((q, d) :: rest)) (hp : p < q) :
    ((q, d) :: rest).lookup p = none := by
  rw [List.lookup_eq_none_iff]
  intro entry hm
  have hle : q ≤ entry.1 := by
    rcases List.mem_cons.mp hm with rfl | hm
    · exact Int.le_refl _
    · exact Int.le_of_lt (List.rel_of_pairwise_cons h hm)
  have hne : p ≠ entry.1 := by omega
  simpa using hne

theorem lookup_changeBucket (h : Ascends buckets) (q : Int) : (changeBucket p f buckets).lookup q =
    if q = p then some (f ((buckets.lookup p).getD .empty)) else buckets.lookup q := by
  induction buckets with
  | nil =>
    rw [Pagewright.changeBucket, lookup_cons_if]
    rfl
  | cons entry rest ih =>
    obtain ⟨r, d⟩ := entry
    rw [Pagewright.changeBucket]
    split
    · next hp =>
      rw [h.lookup_eq_none hp, lookup_cons_if]
      rfl
    split
    · next hr =>
      subst hr
      rw [lookup_cons_if, lookup_cons_if, lookup_cons_if, if_pos rfl]
      split <;> rfl
    · next hr =>
      rw [lookup_cons_if, lookup_cons_if, lookup_cons_if, ih (List.Pairwise.of_cons h), if_neg hr]
      by_cases hq : q = p
      · rw [if_pos hq, if_pos hq, if_neg (hq ▸ hr)]
      · rw [if_neg hq, if_neg hq]

private theorem mem_changeBucket {entry : Int × Declarations}
    (hm : entry ∈ changeBucket p f buckets) : entry.1 = p ∨ ∃ old ∈ buckets, old.1 = entry.1 := by
  induction buckets with
  | nil => exact .inl (congrArg Prod.fst (List.mem_singleton.mp hm))
  | cons other rest ih =>
    rw [Pagewright.changeBucket] at hm
    split at hm
    · rcases List.mem_cons.mp hm with rfl | hm
      · exact .inl rfl
      · exact .inr ⟨entry, hm, rfl⟩
    split at hm
    · next _ hp =>
      rcases List.mem_cons.mp hm with rfl | hm
      · exact .inl hp.symm
      · exact .inr ⟨entry, List.mem_cons_of_mem _ hm, rfl⟩
    · rcases List.mem_cons.mp hm with rfl | hm
      · exact .inr ⟨_, List.mem_cons_self, rfl⟩
      · rcases ih hm with hp | ⟨old, hold, he⟩
        · exact .inl hp
        · exact .inr ⟨old, List.mem_cons_of_mem _ hold, he⟩

theorem lookup_of_mem (h : Ascends buckets) (hm : (p, d) ∈ buckets) :
    buckets.lookup p = some d := by
  induction buckets with
  | nil => cases hm
  | cons entry rest ih =>
    obtain ⟨q, e⟩ := entry
    rw [lookup_cons_if]
    rcases List.mem_cons.mp hm with heq | hm
    · cases heq
      rw [if_pos rfl]
    · have hq : q < p := List.rel_of_pairwise_cons h hm
      rw [if_neg (Int.ne_of_lt hq).symm, ih (List.Pairwise.of_cons h) hm]

theorem changeBucket (h : Ascends buckets) (p : Int) (f : Declarations → Declarations) :
    Ascends (changeBucket p f buckets) := by
  induction buckets with
  | nil => exact List.pairwise_singleton _ _
  | cons entry rest ih =>
    have hrest := List.Pairwise.of_cons h
    rw [Pagewright.changeBucket]
    split
    · next hp =>
      refine List.pairwise_cons.mpr ⟨fun other hm => ?_, h⟩
      rcases List.mem_cons.mp hm with rfl | hm
      · exact hp
      · exact Int.lt_trans hp (List.rel_of_pairwise_cons h hm)
    split
    · exact List.pairwise_cons.mpr ⟨fun other => List.rel_of_pairwise_cons h, hrest⟩
    · next hlt hne =>
      refine List.pairwise_cons.mpr ⟨fun other hm => ?_, ih hrest⟩
      rcases mem_changeBucket hm with hp | ⟨old, hold, he⟩
      · omega
      · rw [← he]
        exact List.rel_of_pairwise_cons h hold

end Ascends

/-- The declarations that samples add up to, in order. -/
def declareAll (samples : List (Track × Keyframe × Scalar)) (d : Declarations) : Declarations :=
  samples.foldl (fun d s => s.1.declare s.2.2.shown d) d

theorem declareAll_append (left right : List (Track × Keyframe × Scalar)) (d : Declarations) :
    declareAll (left ++ right) d = declareAll right (declareAll left d) :=
  List.foldl_append

/-- The keyframes of a track that have a value, with that value. -/
def Track.samples (t : Track) : List (Track × Keyframe × Scalar) :=
  t.keyframes.filterMap fun k => k.value?.map (t, k, ·)

theorem Track.fst_of_mem_samples {t : Track} {s : Track × Keyframe × Scalar} (h : s ∈ t.samples) :
    s.1 = t := by
  obtain ⟨k, _, hk⟩ := List.mem_filterMap.mp h
  obtain ⟨v, _, rfl⟩ := Option.map_eq_some_iff.mp hk
  rfl

namespace Animation

theorem samples_eq (a : Animation) : a.samples = a.tracks.flatMap Track.samples := rfl

/-- The samples that fall at a percentage of the duration. -/
def samplesAt (a : Animation) (p : Int) : List (Track × Keyframe × Scalar) :=
  a.samples.filter fun s => percentOf s.2.1.time a.duration = p

theorem fst_mem_of_mem_samplesAt {a : Animation} {p : Int} {s : Track × Keyframe × Scalar}
    (h : s ∈ a.samplesAt p) : s.1 ∈ a.tracks := by
  obtain ⟨t, ht, hs⟩ := List.mem_flatMap.mp (List.mem_filter.mp h).1
  rw [Track.fst_of_mem_samples hs]
  exact ht

private theorem buckets_fold (duration : Number) (p : Int)
    (samples : List (Track × Keyframe × Scalar)) :
    let buckets := samples.foldl (fun buckets s =>
      changeBucket (percentOf s.2.1.time duration) (s.1.declare s.2.2.shown) buckets) []
    let here := samples.filter fun s => percentOf s.2.1.time duration = p
    Ascends buckets ∧
      buckets.lookup p = if here = [] then none else some (declareAll here .empty) := by
  induction samples using List.reverseRecOn with
  | nil => exact ⟨List.Pairwise.nil, rfl⟩
  | append_singleton before s ih =>
    obtain ⟨hascends, hlookup⟩ := ih
    simp only [List.foldl_append, List.foldl_cons, List.foldl_nil, List.filter_append]
    refine ⟨hascends.changeBucket _ _, ?_⟩
    rw [hascends.lookup_changeBucket]
    by_cases hp : percentOf s.2.1.time duration = p
    · rw [if_pos hp.symm, hp, hlookup, List.filter_cons_of_pos (by simpa using hp),
        List.filter_nil, declareAll_append,
        if_neg (List.append_ne_nil_of_right_ne_nil _ (List.cons_ne_nil s []))]
      split
      · next hnone =>
        rw [hnone]
        rfl
      · rfl
    · rw [if_neg (Ne.symm hp), hlookup, List.filter_cons_of_neg (by simpa using hp),
        List.filter_nil, List.append_nil]

theorem buckets_ascend (a : Animation) : Ascends a.buckets :=
  (buckets_fold a.duration 0 a.samples).1

/-- The declarations at a percentage are those of the samples there, and without samples there
are none. -/
theorem lookup_buckets (a : Animation) (p : Int) : a.buckets.lookup p =
    if a.samplesAt p = [] then none else some (declareAll (a.samplesAt p) .empty) :=
  (buckets_fold a.duration p a.samples).2

end Animation

namespace Track

/-- The call that a value adds to the composite transform, if the track is one of its channels. -/
def call? (t : Track) (value : Scalar) : Option String :=
  match t.target with
  | .channel c => some (c.function ++ "(" ++ value.shown ++ ")")
  | _ => none

theorem property_of_target {t : Track} {name : String} (h : t.target = .property name) :
    t.property = name := by
  unfold target at h
  extract_lets name at h
  split at h
  · split at h <;> cases h
  · exact Target.property.inj h

theorem get?_declare (t : Track) (value key : String) (d : Declarations)
    (hkey : key ≠ "transform") :
    (t.declare value d).get? key = if t.target = .property key then some value else d.get? key := by
  rw [declare]
  cases t.target with
  | property name => simp [Dict.get?_insert]
  | channel c =>
    dsimp only
    split <;> simp [Dict.get?_insert, hkey.symm]
  | unknownChannel => simp

theorem get?_declare_transform (t : Track) (value : Scalar) (d : Declarations)
    (ht : t.target ≠ .property "transform") : (t.declare value.shown d).get? "transform" =
      match t.call? value with
      | some call => some ((d.get? "transform").elim call fun calls => calls ++ " " ++ call)
      | none => d.get? "transform" := by
  rw [declare, call?]
  cases htarget : t.target with
  | property name =>
    have hname : name ≠ "transform" := fun h => ht (by rw [htarget, h])
    simp [Dict.get?_insert, hname]
  | channel c =>
    dsimp only
    split <;> simp [Dict.get?_insert, *]
  | unknownChannel => rfl

end Track

section Declared

variable {samples : List (Track × Keyframe × Scalar)}

/-- Of the values declared for a property the last one stays. -/
theorem get?_declareAll {key : String} (hkey : key ≠ "transform") (d : Declarations) :
    (declareAll samples d).get? key =
      ((samples.filterMap fun s =>
        if s.1.target = .property key then some s.2.2.shown else none).getLast?).or
        (d.get? key) := by
  induction samples using List.reverseRecOn with
  | nil => rfl
  | append_singleton before s ih =>
    rw [declareAll_append, List.filterMap_append, List.getLast?_append]
    change (s.1.declare s.2.2.shown _).get? key = _
    rw [s.1.get?_declare _ _ _ hkey, ih]
    by_cases hs : s.1.target = .property key <;> simp [hs]

theorem get?_declareAll_of_untouched {key : String} (hkey : key ≠ "transform")
    (h : ∀ s ∈ samples, s.1.target ≠ .property key) (d : Declarations) :
    (declareAll samples d).get? key = d.get? key := by
  rw [get?_declareAll hkey, List.filterMap_eq_nil_iff.mpr fun s hs => if_neg (h s hs)]
  rfl

/-- The calls that samples add to the composite transform, each with its track, in order. -/
def callsOf (samples : List (Track × Keyframe × Scalar)) : List (Track × String) :=
  samples.filterMap fun s => (s.1.call? s.2.2).map (s.1, ·)

theorem callsOf_append (left right : List (Track × Keyframe × Scalar)) :
    callsOf (left ++ right) = callsOf left ++ callsOf right :=
  List.filterMap_append

theorem exists_of_mem_callsOf {call : Track × String} (h : call ∈ callsOf samples) :
    ∃ s ∈ samples, s.1 = call.1 := by
  obtain ⟨s, hs, hcall⟩ := List.mem_filterMap.mp h
  obtain ⟨text, _, rfl⟩ := Option.map_eq_some_iff.mp hcall
  exact ⟨s, hs, rfl⟩

/-- Where no property is called transform, the composite transform has all calls, in order. -/
theorem get?_declareAll_transform (h : ∀ s ∈ samples, s.1.target ≠ .property "transform") :
    (declareAll samples .empty).get? "transform" =
      if callsOf samples = [] then none
      else some (joinWith " " ((callsOf samples).map Prod.snd)) := by
  induction samples using List.reverseRecOn with
  | nil => rfl
  | append_singleton before s ih =>
    have hs := h s (by simp)
    have hbefore := ih fun s hm => h s (List.mem_append_left _ hm)
    rw [declareAll_append]
    change (s.1.declare s.2.2.shown _).get? "transform" = _
    rw [s.1.get?_declare_transform _ _ hs, hbefore, callsOf_append]
    cases hcall : s.1.call? s.2.2 with
    | none =>
      have hlast : callsOf [s] = [] := by simp [callsOf, hcall]
      rw [hlast, List.append_nil]
    | some call =>
      have hlast : callsOf [s] = [(s.1, call)] := by simp [callsOf, hcall]
      rw [hlast, if_neg (List.append_ne_nil_of_right_ne_nil _ (List.cons_ne_nil _ [])),
        List.map_append]
      by_cases hcalls : callsOf before = []
      · rw [if_pos hcalls, hcalls]
        rfl
      · have hsome : (callsOf before).map Prod.snd ≠ [] := fun h =>
          hcalls (List.map_eq_nil_iff.mp h)
        rw [if_neg hcalls, List.map_singleton, joinWith_concat " " call hsome]
        rfl

end Declared

end Pagewright
