import Mathlib.Data.List.Induction
import Pagewright.Markup.Render
import Pagewright.Proofs.Dict
import Pagewright.Proofs.Json.Balance
import Pagewright.Proofs.Source.Indentation

/-! What animations write into the markup of their elements. -/

namespace Pagewright

/-- The props that name a state, which the trigger of an animation alone decides. -/
def Trigger.states : Trigger → List (String × String)
  | hover => [("initial", "initial"), ("animate", "initial"), ("whileHover", "animate")]
  | click => [("initial", "initial"), ("animate", "initial"), ("whileTap", "animate")]
  | entry => [("initial", "initial"), ("animate", "animate")]
  | _ => [("initial", "initial"), ("animate", "initial")]

namespace Animation

variable (a : Animation)

theorem states_motionProps : a.motionProps.states = a.trigger.states := by
  cases htrigger : a.trigger <;> simp [motionProps, MotionProps.states, Trigger.states, htrigger]

private theorem braced_level (name : String) (hname : Level name.toList) (j : Json) :
    Level (name ++ "=\x7b" ++ j.compact ++ "\x7d").toList := by
  have heq : Level "=".toList := rfl
  have htext : (name ++ "=\x7b" ++ j.compact ++ "\x7d").toList =
      name.toList ++ "=".toList ++ ('{' :: j.compact.toList ++ ['}']) := by simp
  rw [htext]
  exact (hname.append heq).append j.compact_level.braces

private theorem stateAttributes_level (t : Trigger) :
    ∀ entry ∈ t.states, Level (entry.1 ++ "=\"" ++ entry.2 ++ "\"").toList := by
  cases t <;> decide

/-- The attributes of motion props are level, whatever the keyframes hold. -/
theorem motionAttributes_level : Level a.motionProps.attributes.toList := by
  have hspace : Level " ".toList := rfl
  refine Level.joinWith hspace ?_
  intro piece hpiece
  rcases List.mem_append.mp hpiece with hpiece | hpiece
  · rcases List.mem_append.mp hpiece with hpiece | hpiece
    · rw [List.mem_singleton.mp hpiece]
      exact braced_level "variants" (by decide) _
    · obtain ⟨entry, hentry, rfl⟩ := List.mem_map.mp hpiece
      rw [states_motionProps] at hentry
      exact stateAttributes_level a.trigger entry hentry
  · rw [List.mem_singleton.mp hpiece]
    exact braced_level "transition" (by decide) _

end Animation

/-- The animation that an element shows: its last one. -/
def shownAnimation? (animations : List Animation) (id : String) : Option Animation :=
  (animations.filter fun a => a.elementId = id).getLast?

theorem shownAnimation?_isSome_iff {animations : List Animation} {id : String} :
    (shownAnimation? animations id).isSome ↔ ∃ a ∈ animations, a.elementId = id := by
  simp [shownAnimation?]

namespace Bindings

theorem get?_ofAnimations (animations : List Animation) (backend : Backend) (id : String) :
    (ofAnimations animations backend).get? id =
      (shownAnimation? animations id).map fun a => a.binding backend := by
  induction animations using List.reverseRecOn with
  | nil => rfl
  | append_singleton before a ih =>
    have hfold : ofAnimations (before ++ [a]) backend =
        (ofAnimations before backend).insert a.elementId (a.binding backend) := by
      rw [ofAnimations, List.foldl_append]
      rfl
    rw [hfold, Dict.get?_insert, ih, shownAnimation?, shownAnimation?, List.filter_append]
    by_cases hid : a.elementId = id <;> simp [hid]

theorem exists_animation {animations : List Animation} {backend : Backend} {id : String}
    {binding : Binding} (h : (ofAnimations animations backend).get? id = some binding) :
    ∃ a ∈ animations, a.elementId = id ∧ binding = a.binding backend := by
  rw [get?_ofAnimations] at h
  obtain ⟨a, hlast, rfl⟩ := Option.map_eq_some_iff.mp h
  obtain ⟨hm, hid⟩ := List.mem_filter.mp (List.mem_of_getLast? hlast)
  exact ⟨a, hm, of_decide_eq_true hid, rfl⟩

end Bindings

end Pagewright
