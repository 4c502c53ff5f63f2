import Pagewright.Page.Basic
import Pagewright.Proofs.Forest.Ids
import Pagewright.Proofs.Forest.Placed
import Pagewright.Proofs.Forest.Visits

/-!
What makes a page valid, and which fault is reported otherwise. Slugs are told by their characters,
repeated ids and wrong parents by where they first occur in document order.
-/

namespace Pagewright

/-- A text of characters of some ranges, at least one. -/
def MadeOf (ranges : List (Char × Char)) (text : String) : Prop :=
  text ≠ "" ∧ ∀ c ∈ text.toList, ∃ range ∈ ranges, range.1 ≤ c ∧ c ≤ range.2

/-- Lowercase letters, digits and the hyphen. -/
def slugRanges : List (Char × Char) := [('a', 'z'), ('0', '9'), ('-', '-')]

theorem char_eq_iff_le {c d : Char} : c = d ↔ d ≤ c ∧ c ≤ d := by
  constructor
  · rintro rfl
    exact ⟨Char.le_refl c, Char.le_refl c⟩
  · exact fun h => Char.le_antisymm h.2 h.1

theorem isLower_iff_le {c : Char} : c.isLower ↔ 'a' ≤ c ∧ c ≤ 'z' :=
  Bool.and_eq_true_iff.trans (and_congr decide_eq_true_iff decide_eq_true_iff)

theorem isDigit_iff_le {c : Char} : c.isDigit ↔ '0' ≤ c ∧ c ≤ '9' :=
  Bool.and_eq_true_iff.trans (and_congr decide_eq_true_iff decide_eq_true_iff)

theorem isSlug_iff {slug : String} : isSlug slug ↔ MadeOf slugRanges slug := by
  have hchar (c : Char) : isSlugChar c ↔ ∃ range ∈ slugRanges, range.1 ≤ c ∧ c ≤ range.2 := by
    simp [isSlugChar, slugRanges, isLower_iff_le, isDigit_iff_le, char_eq_iff_le, or_assoc]
  simp [isSlug, MadeOf, ← hchar]

namespace Page

variable {p : Page}

/-- The fault of a page: its slug; or else the first id that occurred before; or else the first
element that records a wrong parent. -/
inductive HasFault (p : Page) : PageError → Prop where
  | slug : ¬ MadeOf slugRanges p.slug → p.HasFault (.invalidSlug p.slug)
  | repeated {id : String} : MadeOf slugRanges p.slug → IsFirstRepeat (Forest.ids p.layout) id →
      p.HasFault (.layout (.duplicateId id))
  | stray {actual : Option String} {e : Element} : MadeOf slugRanges p.slug →
      (Forest.ids p.layout).Nodup → Forest.IsFirstStray p.layout actual e →
      p.HasFault (.layout (.parentMismatch e.id e.parentId actual))

theorem validate_eq_error_iff {fault : PageError} :
    p.validate = .error fault ↔ p.HasFault fault := by
  constructor
  · intro h
    unfold validate at h
    cases hs : isSlug p.slug with
    | false =>
      rw [hs] at h
      obtain rfl := Except.error.inj h
      exact .slug fun hslug => absurd (isSlug_iff.mpr hslug) (by simp [hs])
    | true =>
      have hslug := isSlug_iff.mp hs
      cases hids : Forest.collectIds p.layout with
      | error fault' =>
        simp only [hs, hids] at h
        obtain rfl := Except.error.inj h
        obtain ⟨id, hrepeat, rfl⟩ := Forest.collectIds_eq_error_iff.mp hids
        exact .repeated hslug hrepeat
      | ok found =>
        have hnodup := (Forest.collectIds_eq_ok_iff.mp hids).1
        cases hparents : Forest.checkParents p.layout with
        | error fault' =>
          simp only [hs, hids, hparents] at h
          obtain rfl := Except.error.inj h
          obtain ⟨actual, e, hstray, rfl⟩ := Forest.checkParents_eq_error_iff.mp hparents
          exact .stray hslug hnodup hstray
        | ok _ => simp [hs, hids, hparents] at h
  · rintro (hslug | ⟨hslug, hrepeat⟩ | ⟨hslug, hnodup, hstray⟩)
    · simp [validate, isSlug_iff, hslug]
    · have hids := Forest.collectIds_eq_error_iff.mpr ⟨_, hrepeat, rfl⟩
      simp [validate, isSlug_iff, hslug, hids]
    · have hids := Forest.collectIds_eq_ok_iff.mpr ⟨hnodup, rfl⟩
      have hparents := Forest.checkParents_eq_error_iff.mpr ⟨_, _, hstray, rfl⟩
      simp [validate, isSlug_iff, hslug, hids, hparents]

theorem validate_eq_ok_iff : p.validate = .ok () ↔ MadeOf slugRanges p.slug ∧
    (Forest.ids p.layout).Nodup ∧ Forest.RecordsParents p.layout := by
  rw [← isSlug_iff, ← Forest.exists_collectIds_iff, ← Forest.checkParents_eq_ok_iff]
  unfold validate
  cases isSlug p.slug with
  | false => simp
  | true =>
    cases Forest.collectIds p.layout with
    | error fault => simp
    | ok found => cases Forest.checkParents p.layout <;> simp

/-- A page is valid exactly when its slug has the characters of slugs, its ids are distinct at all
depths, and every element records the element directly around it. Otherwise it has exactly one
fault, which is reported. The ids of a valid page are collected in document order, one of each
element. -/
theorem validation_exact (p : Page) :
    (p.validate = .ok () ↔ MadeOf slugRanges p.slug ∧ (Forest.ids p.layout).Nodup ∧
      Forest.RecordsParents p.layout) ∧
    (∀ fault, p.validate = .error fault ↔ p.HasFault fault) ∧
    (p.validate = .ok () → Forest.collectIds p.layout = .ok (Forest.ids p.layout) ∧
      (Forest.ids p.layout).length = (p.layout.map Element.size).sum) := by
  refine ⟨validate_eq_ok_iff, fun _ => validate_eq_error_iff, fun h => ⟨?_, ?_⟩⟩
  · exact Forest.collectIds_eq_ok_iff.mpr ⟨(validate_eq_ok_iff.mp h).2.1, rfl⟩
  · rw [Forest.ids, List.length_map, Forest.length_preorder, Forest.size_eq_sum]

private def enquiry : Page :=
  let row := (Element.bare "row" .container).withChild (Element.bare "name" .input)
  { bare "p1" "Enquiry" "enquiry" with
    layout := [(Element.bare "form" .form).withChild row, Element.bare "note" .text] }

/-- Nested ids are collected where they stand. -/
theorem enquiry_ids_collected : enquiry.validate = .ok () ∧
    Forest.collectIds enquiry.layout = .ok ["form", "row", "name", "note"] ∧
    ["form", "row", "name", "note"].length = (enquiry.layout.map Element.size).sum :=
  have hvalid : enquiry.validate = .ok () := rfl
  ⟨hvalid, (validation_exact enquiry).2.2 hvalid⟩

end Page

end Pagewright
