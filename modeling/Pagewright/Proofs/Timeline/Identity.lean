import Pagewright.Proofs.Timeline.Steps

/-! Ids over any sequence of calls on a timeline. They stay distinct, and each one given for a new
part stays with this part until the part is removed. -/

namespace Pagewright

namespace PresetTrack

private theorem parts_instantiate (ids : IdSupply) (start : Nat) (elementId animationId : String)
    (p : PresetTrack) :
    ((p.instantiate ids start elementId).parts animationId elementId).map TimelinePart.id =
      (List.range' start p.idCount).map ids := by
  have keyframes : (p.instantiate ids start elementId).keyframes.map Keyframe.id =
      (List.range' (start + 1) p.samples.length).map ids := by
    apply List.ext_getElem
    · simp [instantiate]
    · intro i _ _
      simp [instantiate, Keyframe.ofValue]
  rw [Track.parts_map_id, keyframes, idCount, Nat.add_comm 1, List.range'_succ, List.map_cons]
  rfl

private theorem parts_instantiateAll (ids : IdSupply) (start : Nat)
    (elementId animationId : String) (forms : List PresetTrack) :
    ((instantiateAll ids start elementId forms).flatMap
      (Track.parts animationId elementId)).map TimelinePart.id =
        (List.range' start (idCountAll forms)).map ids := by
  induction forms generalizing start with
  | nil => rfl
  | cons form rest ih =>
    rw [instantiateAll, List.flatMap_cons, List.map_append, parts_instantiate, ih, idCountAll,
      ← List.range'_append_1, List.map_append]

end PresetTrack

/-- A track is for the element of its animation. -/
def TimelinePart.SharesElement : TimelinePart → Prop
  | track _ elementId t => t.elementId = elementId
  | _ => True

theorem Animation.forall_sharesElement_iff {a : Animation} :
    (∀ p ∈ a.parts, p.SharesElement) ↔ ∀ track ∈ a.tracks, track.elementId = a.elementId := by
  constructor
  · intro h track htrack
    exact h (.track a.id a.elementId track.own)
      (mem_parts.mpr (.inr ⟨track, htrack, List.mem_cons_self⟩))
  · intro h p hp
    rcases mem_parts.mp hp with rfl | ⟨track, htrack, hp⟩
    · trivial
    · rcases Track.mem_parts.mp hp with rfl | ⟨k, _, rfl⟩
      · exact h track htrack
      · trivial

/-- The id is one of those that have been drawn from the supply. -/
def Timeline.HasDrawn (ids : IdSupply) (t : Timeline) (id : String) : Prop :=
  ∃ n, n ≤ t.drawn ∧ id = ids n

/-- What every timeline built by calls has: distinct ids, all of them drawn, and tracks for the
elements of their animations. -/
structure Timeline.Identified (ids : IdSupply) (t : Timeline) : Prop where
  distinct : t.IdsDistinct
  drawn : ∀ p ∈ t.parts, t.HasDrawn ids p.id
  shares : ∀ p ∈ t.parts, p.SharesElement

namespace TimelineCall

/-- The timeline after a sequence of calls. -/
def runAll (ids : IdSupply) (calls : List TimelineCall) (t : Timeline) : Timeline :=
  calls.foldl (fun t call => call.run ids t) t

/-- The id that the call gives for what it adds. -/
def added? (ids : IdSupply) : TimelineCall → Timeline → Option String
  | addAnimation elementId trigger presetId, t =>
    ((TimelineEdit.addAnimation ids elementId trigger presetId).on t).1.toOption
  | addTrack animationId property, t =>
    ((TimelineEdit.addTrack ids animationId property).on t).1.toOption
  | addKeyframe trackId time properties, t =>
    ((TimelineEdit.addKeyframe ids trackId time properties).on t).1.toOption
  | _, _ => none

/-- The part is of the kind that the call adds, with the arguments of the call. -/
def Makes : TimelineCall → TimelinePart → Prop
  | addAnimation elementId trigger _, .animation a => a.elementId = elementId ∧ a.trigger = trigger
  | addTrack animationId property, .track owner _ t => owner = animationId ∧ t.property = property
  | addKeyframe trackId time properties, .keyframe _ _ owner k =>
    owner = trackId ∧ k.time = time ∧ k.properties = properties
  | _, _ => False

variable {ids : IdSupply} {call : TimelineCall} {t : Timeline} {p q : TimelinePart}

theorem edit_id (call : TimelineCall) (p : TimelinePart) : (call.edit p).id = p.id := by
  fun_cases edit call p with
  | case4 => rfl
  | case1 | case2 | case3 =>
    dsimp only [TimelinePart.id]
    split <;> rfl

/-- Whether a call removes a part does not depend on the data of the part. -/
theorem removes_edit (call other : TimelineCall) (p : TimelinePart) :
    call.removes (other.edit p) = call.removes p := by
  fun_cases edit other p with
  | case4 => rfl
  | case1 | case2 | case3 =>
    split
    · cases call <;> rfl
    · rfl

theorem edit_sharesElement (call : TimelineCall) (h : p.SharesElement) :
    (call.edit p).SharesElement := by
  fun_cases edit call p with
  | case4 => exact h
  | case1 | case2 | case3 => split <;> exact h

theorem after_eq_some_iff : call.after p = some q ↔ call.removes p = false ∧ call.edit p = q := by
  rw [after]
  cases call.removes p <;> simp

private theorem filterMap_after_sublist (call : TimelineCall) (parts : List TimelinePart) :
    ((parts.filterMap call.after).map TimelinePart.id).Sublist (parts.map TimelinePart.id) := by
  induction parts with
  | nil => exact List.Sublist.refl _
  | cons p rest ih =>
    rw [List.filterMap_cons, after]
    cases call.removes p with
    | true => exact ih.cons _
    | false => simpa [edit_id] using ih.cons_cons p.id

/-- The new parts have the ids next in the supply, in this order, and these count as drawn. -/
private theorem newParts_ids (ids : IdSupply) (call : TimelineCall) (t : Timeline) :
    ∃ n, (call.newParts ids t).map TimelinePart.id = (List.range' (t.drawn + 1) n).map ids ∧
      (call.run ids t).drawn = t.drawn + n := by
  cases call with
  | addAnimation elementId trigger presetId =>
    rw [run, TimelineEdit.addAnimation_on]
    cases presetId with
    | none => exact ⟨1, rfl, rfl⟩
    | some presetId =>
      dsimp only
      rw [newParts]
      cases Preset.find? presetId with
      | none => exact ⟨0, rfl, rfl⟩
      | some preset =>
        refine ⟨1 + PresetTrack.idCountAll preset.tracks, ?_, Nat.add_assoc _ _ _⟩
        rw [Nat.add_comm 1, List.range'_succ, List.map_cons]
        refine congrArg (List.cons _) ?_
        exact PresetTrack.parts_instantiateAll ids _ elementId _ preset.tracks
  | addTrack animationId property =>
    rw [run, TimelineEdit.addTrack_on, newParts]
    cases t.find? animationId with
    | none => exact ⟨0, rfl, rfl⟩
    | some a => exact ⟨_, PresetTrack.parts_instantiate ids _ a.elementId a.id _, rfl⟩
  | addKeyframe trackId time properties =>
    rw [run, TimelineEdit.addKeyframe_on, newParts]
    cases found : t.findTrack? trackId with
    | none =>
      rw [Timeline.ownerOf?_of_findTrack?_eq_none found]
      exact ⟨0, rfl, rfl⟩
    | some track =>
      obtain ⟨a, ha, _⟩ := Timeline.exists_ownerOf?_of_findTrack? found
      rw [ha]
      exact ⟨1, rfl, rfl⟩
  | updateAnimation | removeAnimation | setTrackEasing | removeTrack | updateKeyframe
  | removeKeyframe =>
    refine ⟨0, rfl, ?_⟩
    simp only [run, TimelineEdit.updateAnimation_on, TimelineEdit.removeAnimation_on,
      TimelineEdit.setTrackEasing_on, TimelineEdit.removeTrack_on, TimelineEdit.updateKeyframe_on,
      TimelineEdit.removeKeyframe_on]
    split <;> rfl
  | removeForElement elementId => exact ⟨0, rfl, rfl⟩

private theorem newParts_sharesElement (ids : IdSupply) (call : TimelineCall) (t : Timeline) :
    ∀ p ∈ call.newParts ids t, p.SharesElement := by
  fun_cases newParts ids call t with
  | case1 elementId trigger => exact Animation.forall_sharesElement_iff.mpr nofun
  | case2 elementId trigger presetId t preset hpreset =>
    refine Animation.forall_sharesElement_iff.mpr fun track htrack => ?_
    obtain ⟨form, _, start, rfl⟩ := PresetTrack.mem_instantiateAll htrack
    rfl
  | case4 animationId property t a ha =>
    intro p hp
    rcases Track.mem_parts.mp hp with rfl | ⟨k, _, rfl⟩
    · rfl
    · trivial
  | case6 trackId time properties t a ha =>
    intro p hp
    rw [List.mem_singleton.mp hp]
    trivial
  | case3 | case5 | case7 | case8 => nofun

theorem hasDrawn_run {id : String} (call : TimelineCall) (h : t.HasDrawn ids id) :
    (call.run ids t).HasDrawn ids id := by
  obtain ⟨n, hn, hid⟩ := h
  obtain ⟨_, _, drawn⟩ := newParts_ids ids call t
  exact ⟨n, by omega, hid⟩

theorem hasDrawn_run_of_new (h : p ∈ call.newParts ids t) :
    (call.run ids t).HasDrawn ids p.id := by
  obtain ⟨n, hnew, drawn⟩ := newParts_ids ids call t
  have hid : p.id ∈ (List.range' (t.drawn + 1) n).map ids := hnew ▸ List.mem_map_of_mem h
  obtain ⟨i, hi, hpid⟩ := List.mem_map.mp hid
  rw [List.mem_range'_1] at hi
  exact ⟨i, by omega, hpid.symm⟩

section Run

variable (injective : Function.Injective ids)

include injective

theorem not_hasDrawn_of_new (h : p ∈ call.newParts ids t) : ¬ t.HasDrawn ids p.id := by
  obtain ⟨n, hnew, _⟩ := newParts_ids ids call t
  have hid : p.id ∈ (List.range' (t.drawn + 1) n).map ids := hnew ▸ List.mem_map_of_mem h
  obtain ⟨i, hi, hpid⟩ := List.mem_map.mp hid
  rintro ⟨m, hm, hdrawn⟩
  rw [← injective (hpid.trans hdrawn)] at hm
  rw [List.mem_range'_1] at hi
  omega

/-- Every call leaves a timeline of this kind. -/
theorem run_identified (call : TimelineCall) (h : t.Identified ids) :
    (call.run ids t).Identified ids := by
  have perm := run_parts_perm ids call h.distinct
  have cases {p : TimelinePart} (hp : p ∈ (call.run ids t).parts) :
      (∃ old ∈ t.parts, call.edit old = p) ∨ p ∈ call.newParts ids t := by
    rw [perm.mem_iff, List.mem_append, List.mem_filterMap] at hp
    refine hp.imp_left fun ⟨old, hold, hafter⟩ => ?_
    exact ⟨old, hold, (after_eq_some_iff.mp hafter).2⟩
  constructor
  · rw [Timeline.IdsDistinct, (perm.map TimelinePart.id).nodup_iff, List.map_append,
      List.nodup_append']
    refine ⟨h.distinct.sublist (filterMap_after_sublist call t.parts), ?_, ?_⟩
    · obtain ⟨n, hnew, _⟩ := newParts_ids ids call t
      rw [hnew]
      exact (List.nodup_range' 1).map injective
    · intro id hkept hnew
      obtain ⟨old, hold, rfl⟩ :=
        List.mem_map.mp ((filterMap_after_sublist call t.parts).subset hkept)
      obtain ⟨p, hp, hid⟩ := List.mem_map.mp hnew
      exact not_hasDrawn_of_new injective hp (hid ▸ h.drawn old hold)
  · intro p hp
    obtain ⟨old, hold, rfl⟩ | hnew := cases hp
    · rw [edit_id]
      exact hasDrawn_run call (h.drawn old hold)
    · exact hasDrawn_run_of_new hnew
  · intro p hp
    obtain ⟨old, hold, rfl⟩ | hnew := cases hp
    · exact edit_sharesElement call (h.shares old hold)
    · exact newParts_sharesElement ids call t p hnew

/-- Under a call, an id that has been drawn designates what becomes of the part. -/
theorem part?_run {id : String} (call : TimelineCall) (h : t.Identified ids)
    (drawn : t.HasDrawn ids id) :
    (call.run ids t).part? id = (t.part? id).bind call.after := by
  have perm := run_parts_perm ids call h.distinct
  ext q
  rw [(run_identified injective call h).distinct.part?_eq_some_iff, perm.mem_iff,
    List.mem_append, List.mem_filterMap, Option.bind_eq_some_iff]
  constructor
  · rintro ⟨⟨p, hp, hafter⟩ | hnew, rfl⟩
    · refine ⟨p, h.distinct.part?_eq_some_iff.mpr ⟨hp, ?_⟩, hafter⟩
      rw [← (after_eq_some_iff.mp hafter).2, edit_id]
    · exact absurd drawn (not_hasDrawn_of_new injective hnew)
  · rintro ⟨p, designated, hafter⟩
    obtain ⟨hp, rfl⟩ := h.distinct.part?_eq_some_iff.mp designated
    refine ⟨.inl ⟨p, hp, hafter⟩, ?_⟩
    rw [← (after_eq_some_iff.mp hafter).2, edit_id]

theorem runAll_identified (calls : List TimelineCall) (h : t.Identified ids) :
    (runAll ids calls t).Identified ids := by
  induction calls generalizing t with
  | nil => exact h
  | cons call rest ih => exact ih (run_identified injective call h)

/-- Over a sequence of calls, a drawn id keeps its part, with the data that the calls give it,
until one of them removes it. -/
theorem part?_runAll {id : String} (calls : List TimelineCall) (h : t.Identified ids)
    (drawn : t.HasDrawn ids id) :
    (runAll ids calls t).part? id = (t.part? id).bind fun p =>
      if calls.any fun call => call.removes p then none
      else some (calls.foldl (fun p call => call.edit p) p) := by
  induction calls generalizing t with
  | nil => exact (Option.bind_fun_some _).symm
  | cons call rest ih =>
    have next := ih (run_identified injective call h) (hasDrawn_run call drawn)
    rw [runAll, List.foldl_cons, ← runAll, next, part?_run injective call h drawn,
      Option.bind_assoc]
    refine congrArg _ (funext fun p => ?_)
    rw [after, List.any_cons, List.foldl_cons]
    cases call.removes p with
    | true => rfl
    | false =>
      simp only [removes_edit, Bool.false_or, Bool.false_eq_true, if_false, Option.bind_some]

end Run

private theorem exists_new_of_added? {id : String} (h : call.added? ids t = some id) :
    ∃ p ∈ call.newParts ids t, p.id = id ∧ call.Makes p := by
  cases call with
  | addAnimation elementId trigger presetId =>
    rw [added?, TimelineEdit.addAnimation_on] at h
    cases presetId with
    | none => exact ⟨_, List.mem_cons_self, Option.some.inj h, rfl, rfl⟩
    | some presetId =>
      dsimp only at h
      cases hpreset : Preset.find? presetId with
      | none =>
        rw [hpreset] at h
        cases h
      | some preset =>
        rw [hpreset] at h
        rw [newParts, hpreset]
        exact ⟨_, List.mem_cons_self, Option.some.inj h, rfl, rfl⟩
  | addTrack animationId property =>
    rw [added?, TimelineEdit.addTrack_on] at h
    cases ha : t.find? animationId with
    | none =>
      rw [ha] at h
      cases h
    | some a =>
      rw [ha] at h
      obtain rfl : a.id = animationId := by simpa using List.find?_some ha
      rw [newParts, ha]
      exact ⟨_, List.mem_cons_self, Option.some.inj h, rfl, rfl⟩
  | addKeyframe trackId time properties =>
    rw [added?, TimelineEdit.addKeyframe_on] at h
    cases found : t.findTrack? trackId with
    | none =>
      rw [found] at h
      cases h
    | some track =>
      rw [found] at h
      obtain ⟨a, ha, _⟩ := Timeline.exists_ownerOf?_of_findTrack? found
      rw [newParts, ha]
      exact ⟨_, List.mem_cons_self, Option.some.inj h, rfl, rfl, rfl⟩
  | updateAnimation | removeAnimation | setTrackEasing | removeTrack | updateKeyframe
  | removeKeyframe | removeForElement => cases h

/-- However many calls are made on an empty timeline, its ids are distinct, every track is for the
element of its animation, and each id designates what the edits look up under it. An id that a call
has given for a new part designates this part, with the data that later calls have given it, until
one of them removes it or its owner; after that the id designates nothing. -/
theorem ids_designate_their_parts (ids : IdSupply) (injective : Function.Injective ids)
    (calls : List TimelineCall) :
    (runAll ids calls .empty).IdsDistinct ∧
    (∀ a ∈ (runAll ids calls .empty).animations,
      ∀ track ∈ a.tracks, track.elementId = a.elementId) ∧
    (runAll ids calls .empty).LooksUpParts ∧
    ∀ earlier call later id, calls = earlier ++ call :: later →
      call.added? ids (runAll ids earlier .empty) = some id →
        (runAll ids earlier .empty).part? id = none ∧
        ∃ p, call.Makes p ∧ (runAll ids (earlier ++ [call]) .empty).part? id = some p ∧
          (runAll ids calls .empty).part? id =
            if later.any fun call => call.removes p then none
            else some (later.foldl (fun p call => call.edit p) p) := by
  have start : Timeline.empty.Identified ids := ⟨List.nodup_nil, nofun, nofun⟩
  have reached := runAll_identified injective calls start
  refine ⟨reached.distinct, fun a ha => ?_, reached.distinct.looksUpParts, ?_⟩
  · refine Animation.forall_sharesElement_iff.mp fun p hp => reached.shares p ?_
    exact Timeline.mem_parts.mpr ⟨a, ha, hp⟩
  · rintro earlier call later id rfl added
    have before := runAll_identified injective earlier start
    have after := run_identified injective call before
    have perm := run_parts_perm ids call before.distinct
    obtain ⟨p, hnew, rfl, made⟩ := exists_new_of_added? added
    have now : (call.run ids (runAll ids earlier .empty)).part? p.id = some p := by
      refine after.distinct.part?_eq_some_iff.mpr ⟨?_, rfl⟩
      exact perm.mem_iff.mpr (List.mem_append_right _ hnew)
    refine ⟨?_, p, made, ?_, ?_⟩
    · rw [Option.eq_none_iff_forall_ne_some]
      intro old designated
      obtain ⟨hold, hid⟩ := before.distinct.part?_eq_some_iff.mp designated
      exact not_hasDrawn_of_new injective hnew (hid ▸ before.drawn old hold)
    · rw [runAll, List.foldl_append]
      exact now
    · rw [runAll, List.foldl_append, List.foldl_cons, ← runAll, ← runAll,
        part?_runAll injective later after (hasDrawn_run_of_new hnew), now, Option.bind_some]

/-- Ids that count what is drawn. -/
private def counted : IdSupply := fun n => "#" ++ toString n

/-- A keyframe joins the track of a preset and moves, and then the track is removed. -/
theorem ids_designate_their_parts_of_fade_in :
    Function.Injective counted ∧
      ∃ p, (addKeyframe "#2" 500 .empty).Makes p ∧
        (runAll counted [.addAnimation "hero" .entry (some "fade-in"),
          .addKeyframe "#2" 500 .empty] .empty).part? "#5" = some p ∧
        (runAll counted [.addAnimation "hero" .entry (some "fade-in"),
          .addKeyframe "#2" 500 .empty, .updateKeyframe "#2" "#5" (some 250) [],
          .removeTrack "#2"] .empty).part? "#5" = none := by
  have injective : Function.Injective counted := by
    intro m n h
    have same : toString m = toString n := (String.append_right_inj "#").mp h
    rw [Nat.toString_eq_ofList_toDigits, Nat.toString_eq_ofList_toDigits, String.ofList_inj] at same
    rw [← Nat.ofDigitChars_toDigits (by decide : 1 < 10) (by decide) (n := m), same,
      Nat.ofDigitChars_toDigits (by decide) (by decide)]
  refine ⟨injective, ?_⟩
  obtain ⟨_, _, _, kept⟩ := ids_designate_their_parts counted injective
    [.addAnimation "hero" .entry (some "fade-in"), .addKeyframe "#2" 500 .empty,
      .updateKeyframe "#2" "#5" (some 250) [], .removeTrack "#2"]
  obtain ⟨_, p, made, now, later⟩ := kept [.addAnimation "hero" .entry (some "fade-in")]
    (.addKeyframe "#2" 500 .empty) [.updateKeyframe "#2" "#5" (some 250) [], .removeTrack "#2"]
    "#5" rfl (by decide)
  refine ⟨p, made, now, later.trans ?_⟩
  cases p with
  | animation a => exact made.elim
  | track animationId elementId t => exact made.elim
  | keyframe animationId elementId owner k =>
    obtain ⟨rfl, _⟩ := made
    rfl

end TimelineCall

end Pagewright
