import Pagewright.Proofs.Json.Balance
import Pagewright.Proofs.Markup.Escape
import Pagewright.Style.Utility

/-! Class names come from tables. They are never empty and never end in a backslash, whatever the
styles hold. -/

namespace Pagewright

/-- What stands before a character that is no backslash does not matter. -/
theorem endsInEscape_append (a : String) {b : String} {c : Char} {rest : List Char}
    (hb : b.toList = c :: rest) (hc : c ≠ '\\') :
    EndsInEscape (a ++ b) ↔ endingBackslashes rest % 2 = 1 := by
  unfold EndsInEscape
  rw [String.toList_append, hb, endingBackslashes_append hc]

/-- The class, if there is one, is not empty and does not end in a backslash. -/
def EndsPlainly (name : Option String) : Prop := ∀ c ∈ name, c ≠ "" ∧ ¬ EndsInEscape c

namespace EndsPlainly

theorem none : EndsPlainly none := nofun

theorem some {name : String} (hfull : name ≠ "") (h : ¬ EndsInEscape name) :
    EndsPlainly (some name) := by
  rintro c ⟨⟩
  exact ⟨hfull, h⟩

theorem lookup {table : ClassTable}
    (h : ∀ entry ∈ table, entry.2 ≠ "" ∧ ¬ EndsInEscape entry.2)
    (value : String) : EndsPlainly (table.lookup value) := by
  intro c hc
  obtain ⟨before, after, rfl, _⟩ := List.lookup_eq_some_iff.mp hc
  exact h (value, c) (by simp)

/-- A stem in front of an ending leaves the ending. -/
theorem map_stem {ending : Option String} (h : EndsPlainly ending) (stem : String) :
    EndsPlainly (ending.map fun ending => stem ++ "-" ++ ending) := by
  intro c hc
  obtain ⟨name, hname, rfl⟩ := Option.map_eq_some_iff.mp hc
  have htext : ("-" ++ name).toList = '-' :: name.toList := by simp
  refine ⟨by simp, ?_⟩
  rw [String.append_assoc, endsInEscape_append stem htext (by decide)]
  exact (h name hname).2

end EndsPlainly

theorem snap?_endsPlainly {scale : Scale}
    (h : ∀ bound ∈ scale, bound.2 ≠ "" ∧ ¬ EndsInEscape bound.2)
    (greatest length : Int) : EndsPlainly (scale.snap? greatest length) := by
  intro c hc
  obtain ⟨bound, hbound, rfl⟩ := Option.map_eq_some_iff.mp hc
  exact h bound ((List.takeWhile_sublist _).subset (List.mem_of_find?_eq_some hbound))

/-- A fixed ending that begins with a hyphen decides for itself. -/
private theorem stem_endsPlainly (stem : String) {ending : String} {rest : List Char}
    (htext : ending.toList = '-' :: rest) (h : endingBackslashes rest = 0) :
    EndsPlainly (some (stem ++ ending)) := by
  have hfull : stem ++ ending ≠ "" := fun hempty => by
    simpa [htext] using congrArg String.toList hempty
  exact .some hfull (by simp [endsInEscape_append stem htext, h])

theorem bind_snap?_endsPlainly {scale : Scale}
    (h : ∀ bound ∈ scale, bound.2 ≠ "" ∧ ¬ EndsInEscape bound.2)
    (stem : String) (greatest : Int) (pixels : Option Int) :
    EndsPlainly ((pixels.bind (scale.snap? greatest)).map fun ending => stem ++ "-" ++ ending) := by
  apply EndsPlainly.map_stem
  intro c hc
  obtain ⟨length, _, hsnap⟩ := Option.bind_eq_some_iff.mp hc
  exact snap?_endsPlainly h greatest length c hsnap

theorem sizeClass?_endsPlainly (stem value : String) : EndsPlainly (sizeClass? stem value) := by
  have hscale : ∀ bound ∈ sizeScale, bound.2 ≠ "" ∧ ¬ EndsInEscape bound.2 := by decide
  unfold sizeClass?
  split
  · exact stem_endsPlainly stem rfl rfl
  split
  · exact stem_endsPlainly stem rfl rfl
  split
  · exact stem_endsPlainly stem rfl rfl
  · exact bind_snap?_endsPlainly hscale stem widestBound _

theorem spacingClass?_endsPlainly (stem value : String) (greatest : Int) (allowsAuto : Bool) :
    EndsPlainly (spacingClass? stem value greatest allowsAuto) := by
  have hscale : ∀ bound ∈ spacingScale, bound.2 ≠ "" ∧ ¬ EndsInEscape bound.2 := by decide
  unfold spacingClass?
  split
  · exact stem_endsPlainly stem rfl rfl
  split
  · exact stem_endsPlainly stem rfl rfl
  · exact bind_snap?_endsPlainly hscale stem greatest _

theorem colorClass?_endsPlainly (stem value : String) : EndsPlainly (colorClass? stem value) :=
  EndsPlainly.map_stem (.lookup (by decide) _) stem

theorem textClass?_endsPlainly (property value : String) :
    EndsPlainly (textClass? property value) := by
  unfold textClass?
  split
  case h_3 | h_4 => exact sizeClass?_endsPlainly _ value
  case h_5 | h_6 | h_7 => exact spacingClass?_endsPlainly _ value _ _
  case h_8 | h_9 => exact colorClass?_endsPlainly _ value
  case h_19 => exact EndsPlainly.none
  all_goals exact EndsPlainly.lookup (by decide) value

theorem opacityClass?_endsPlainly (value : Scalar) : EndsPlainly (opacityClass? value) := by
  have hdigits (n : Nat) : '\\' ∉ (toString n).toList := fun h => by
    cases IsNumeral.toString_nat n _ h
  unfold opacityClass?
  split
  · exact EndsPlainly.none
  split
  · exact EndsPlainly.none
  · refine EndsPlainly.some (by simp) ?_
    rw [EndsInEscape, String.toList_append, endingBackslashes_eq_zero]
    · decide
    · rw [List.mem_append, not_or]
      exact ⟨by decide, hdigits _⟩

theorem stackingClass?_endsPlainly (value : Scalar) : EndsPlainly (stackingClass? value) := by
  have hlevels : ∀ z ∈ stackingLevels,
      (if z < 0 then "z-[" ++ toString z ++ "]" else "z-" ++ toString z) ≠ "" ∧ ¬ EndsInEscape
        (if z < 0 then "z-[" ++ toString z ++ "]" else "z-" ++ toString z) := by decide
  intro c hc
  obtain ⟨z, hz, rfl⟩ := Option.map_eq_some_iff.mp hc
  obtain ⟨_, hlevel⟩ := Option.filter_eq_some_iff.mp hz
  exact hlevels z (by simpa using hlevel)

theorem propertyClass?_endsPlainly (property : String) (value : Scalar) :
    EndsPlainly (propertyClass? property value) := by
  unfold propertyClass?
  split
  · exact opacityClass?_endsPlainly value
  split
  · exact stackingClass?_endsPlainly value
  split
  · exact EndsPlainly.none
  · exact textClass?_endsPlainly property _

/-- A class that a style map is turned into is not empty and does not end in a backslash. -/
theorem plain_of_mem_classList {styles : Dict Scalar} {name : String}
    (h : name ∈ classList styles) : name ≠ "" ∧ ¬ EndsInEscape name := by
  rcases List.mem_append.mp h with h | h
  · obtain ⟨⟨property, value⟩, _, hclass⟩ := List.mem_filterMap.mp h
    exact propertyClass?_endsPlainly property value name hclass
  · obtain ⟨⟨property, stem⟩, _, hclass⟩ := List.mem_filterMap.mp h
    obtain ⟨value, _, hside⟩ := Option.bind_eq_some_iff.mp hclass
    exact spacingClass?_endsPlainly stem value sideBound true name hside

end Pagewright
