import Pagewright.Proofs.Json.Spacing
import Pagewright.Proofs.Markup.Bindings
import Pagewright.Proofs.Source.Members

/-! The renderings of motion props, as attributes in a tag and as an object in code. They give the
same props in the same order, and the documents among the values differ only in their blanks. -/

namespace Pagewright

/-- An object spread over lines is one value. -/
theorem Json.isValue_prettyAt (marks : MemberMarks) (depth : Nat)
    (members : List (String × Json)) :
    IsValue marks (prettyAt depth (.object members)).toList := by
  cases members with
  | nil =>
    have h : IsValue marks ('{' :: [] ++ ['}']) := .braces .nil
    simpa [prettyAt] using h
  | cons member rest =>
    have hinner := (Spreads.prettyMembers (depth + 1) (member :: rest)).append (.breakLine depth)
    have h : IsValue marks ('{' :: _ ++ ['}']) := .braces hinner.level
    simpa [prettyAt] using h

namespace MotionProps

variable (p : MotionProps)

/-- A document that is put into code is written one level deeper than on its own. -/
theorem nested_eq (j : Json) : nested j = j.prettyAt 1 := j.indent_prettyAt 0

theorem squeezed_nested (j : Json) : Json.squeezed (nested j) = j.compact := by
  rw [nested_eq, Json.squeezed_prettyAt]

/-- Props as they are written, with the states in quotation marks and the documents as given. -/
def written (variants transition : String) : List (String × String) :=
  [("variants", variants)] ++ p.states.map (fun (key, state) => (key, "\"" ++ state ++ "\"")) ++
    [("transition", transition)]

theorem attributes_eq : p.attributes = joinWith " "
    ((p.written ("\x7b" ++ p.variants.toJson.compact ++ "\x7d")
      ("\x7b" ++ p.transitionJson.compact ++ "\x7d")).map
        fun (name, value) => name ++ "=" ++ value) := by
  have hvariants (value : String) :
      "variants=" ++ ("\x7b" ++ value ++ "\x7d") = "variants=\x7b" ++ value ++ "\x7d" :=
    String.toList_inj.mp (by simp)
  have htransition (value : String) :
      "transition=" ++ ("\x7b" ++ value ++ "\x7d") = "transition=\x7b" ++ value ++ "\x7d" :=
    String.toList_inj.mp (by simp)
  have hstate (key state : String) :
      key ++ "=" ++ ("\"" ++ state ++ "\"") = key ++ "=\"" ++ state ++ "\"" :=
    String.toList_inj.mp (by simp)
  simp [attributes, written, hvariants, htransition, hstate, Function.comp_def]

theorem body_eq : p.body = memberLines
    ([("variants", nested p.variants.toJson)] ++
      p.states.map (fun (key, state) => (key, "\"" ++ state ++ "\"")))
    ("transition", nested p.transitionJson) := by
  have hstate (key state : String) : "  " ++ key ++ ": " ++ ("\"" ++ state ++ "\"") ++ "," =
      "  " ++ key ++ ": \"" ++ state ++ "\"," := String.toList_inj.mp (by simp)
  simp [body, memberLines, hstate, Function.comp_def]

end MotionProps

namespace Animation

variable (a : Animation)

/-- The states of a trigger are words, which are read as values between quotation marks. -/
private theorem isMember_states {marks : MemberMarks}
    (hmarks : marks.comma = ',' ∨ marks.comma = ' ') :
    ∀ entry ∈ a.motionProps.states.map (fun (key, state) => (key, "\"" ++ state ++ "\"")),
      IsMember marks entry := by
  have hwords (t : Trigger) : ∀ entry ∈ t.states, IsWord entry.1 ∧
      Level ("\"" ++ entry.2 ++ "\"").toList ∧ ',' ∉ ("\"" ++ entry.2 ++ "\"").toList ∧
        ' ' ∉ ("\"" ++ entry.2 ++ "\"").toList := by
    cases t <;> decide
  rw [List.forall_mem_map, states_motionProps]
  intro entry hentry
  obtain ⟨hword, hlevel, hcomma, hspace⟩ := hwords a.trigger entry hentry
  have htext : ("\"" ++ entry.2 ++ "\"").toList = '"' :: entry.2.toList ++ ['"'] := by simp
  have hends : marks.comma ∉ ("\"" ++ entry.2 ++ "\"").toList := by
    rcases hmarks with h | h <;> rw [h] <;> assumption
  rw [htext] at hlevel hends
  exact ⟨hword, htext ▸ IsValue.quoted hlevel hends⟩

/-- The object is what the snippet assigns, whatever the name of the animation is. -/
private theorem behindFirst?_motionSnippet : ∃ rest,
    behindFirst? "= \x7b".toList a.motionSnippet.toList =
      some ('\n' :: (a.motionProps.body.toList ++ '\n' :: '}' :: rest)) := by
  have hheader : '=' ∉ "import \x7b motion \x7d from 'framer-motion';\n\nconst ".toList := by decide
  have hname : ' ' ∉ a.name.toList.filter fun c => !isBlank c := fun h =>
    absurd (List.mem_filter.mp h).2 (by decide)
  have hmark : "= \x7b".toList = ['=', ' ', '{'] := by decide
  have hending (rest : List Char) : "Animation".toList ++ (" = \x7b\n".toList ++ rest) =
      'A' :: "nimation ".toList ++ (['=', ' ', '{'] ++ '\n' :: rest) := by simp
  have hclose : "\n\x7d;\n\n// Usage:\n// <motion.div \x7b...".toList =
      '\n' :: '}' :: ";\n\n// Usage:\n// <motion.div \x7b...".toList := by decide
  unfold motionSnippet constantName
  simp only [String.toList_append, String.toList_ofList, List.append_assoc, hmark, hending, hclose]
  rw [behindFirst?_skip hheader, List.cons_append, behindFirst?_skip_second hname (by decide),
    ← List.cons_append, behindFirst?_skip (by decide), behindFirst?_found (by decide)]
  exact ⟨_, rfl⟩

private theorem assignedMembers?_motionSnippet : assignedMembers? a.motionSnippet =
    some (a.motionProps.written (MotionProps.nested a.motionProps.variants.toJson)
      (MotionProps.nested a.motionProps.transitionJson)) := by
  have hobject (name : String) (hname : IsWord name) (members : List (String × Json)) :
      IsMember .object (name, MotionProps.nested (.object members)) := by
    rw [MotionProps.nested_eq]
    exact ⟨hname, Json.isValue_prettyAt .object 1 members⟩
  obtain ⟨rest, hcode⟩ := behindFirst?_motionSnippet a
  rw [MotionProps.body_eq] at hcode
  refine assignedMembers?_memberLines hcode (List.forall_mem_append.mpr ⟨?_, ?_⟩) ?_
  · exact List.forall_mem_singleton.mpr (hobject "variants" (by decide) _)
  · exact isMember_states a (.inl rfl)
  · exact hobject "transition" (by decide) _

private theorem tagMembers?_attributes : tagMembers? a.motionProps.attributes =
    some (a.motionProps.written ("\x7b" ++ a.motionProps.variants.toJson.compact ++ "\x7d")
      ("\x7b" ++ a.motionProps.transitionJson.compact ++ "\x7d")) := by
  have hbraced (name : String) (hname : IsWord name) (j : Json) :
      IsMember .tag (name, "\x7b" ++ j.compact ++ "\x7d") := by
    have h : IsValue .tag ('{' :: j.compact.toList ++ ['}']) := .braces j.compact_level
    exact ⟨hname, by simpa using h⟩
  rw [MotionProps.attributes_eq]
  refine tagMembers?_joinWith (List.forall_mem_append.mpr ⟨List.forall_mem_append.mpr ⟨?_, ?_⟩, ?_⟩)
  · exact List.forall_mem_singleton.mpr (hbraced "variants" (by decide) _)
  · exact isMember_states a (.inr rfl)
  · exact List.forall_mem_singleton.mpr (hbraced "transition" (by decide) _)

/-- The attributes of an animation and its snippet give the same props: the states are written
alike, and what stands between the braces of the other attributes are the documents of the snippet
without the blanks outside of their strings. -/
theorem renderings_agree : ∃ variants transition : String,
    assignedMembers? a.motionSnippet = some (a.motionProps.written variants transition) ∧
    tagMembers? a.motionProps.attributes = some (a.motionProps.written
      ("\x7b" ++ Json.squeezed variants ++ "\x7d") ("\x7b" ++ Json.squeezed transition ++ "\x7d")) ∧
    Json.squeezed variants = a.motionProps.variants.toJson.compact ∧
    Json.squeezed transition = a.motionProps.transitionJson.compact := by
  refine ⟨_, _, assignedMembers?_motionSnippet a, ?_, MotionProps.squeezed_nested _,
    MotionProps.squeezed_nested _⟩
  rw [MotionProps.squeezed_nested, MotionProps.squeezed_nested]
  exact tagMembers?_attributes a

end Animation

end Pagewright
