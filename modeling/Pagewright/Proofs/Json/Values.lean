import Pagewright.Json.Reader
import Pagewright.Proofs.Json.Leaves
import Pagewright.Proofs.Number.Finite
import Pagewright.Proofs.Traversal

/-! What the literals of a document can be that has been read: integers of 64 bits and finite
numbers. -/

namespace Pagewright

namespace Json

/-- An integer fits 64 bits, and a number is finite. -/
def InRange : Json → Prop
  | .int i => leastInt64 ≤ i ∧ i < wordBound
  | .number n => n.isFinite
  | _ => True

private theorem takeDigits_lt {significand : Nat} (h : significand < wordBound)
    (digits : List Char) : (takeDigits significand digits).1 < wordBound := by
  induction digits generalizing significand with
  | nil => exact h
  | cons c rest ih =>
    rw [takeDigits]
    split
    · next hnext => exact ih hnext
    · exact h

private theorem isFinite_scale {fuel : Nat} {n scaled : Number} {e : Int} (hn : n.isFinite)
    (h : scale? fuel n e = some scaled) : scaled.isFinite := by
  induction fuel generalizing n e with
  | zero =>
    cases h
    exact hn
  | succ fuel ih =>
    rw [scale?] at h
    split at h
    · split at h
      · obtain ⟨hfinite, h⟩ := Option.ite_none_right_eq_some.mp h
        cases h
        exact hfinite
      · obtain ⟨_, h⟩ := Option.ite_none_right_eq_some.mp h
        cases h
        exact hn
    · next hnegative =>
      obtain ⟨k, hk⟩ := Int.eq_ofNat_of_zero_le (by omega : 0 ≤ -e)
      split at h
      · next hnear =>
        rw [hk] at h
        cases h
        exact Number.isFinite_div_power hn (by omega) (by omega)
      split at h
      · cases h
        exact hn
      · exact ih (Number.isFinite_div_power (k := 308) hn (by decide) (by decide)) h

/-- The floating-point value of a numeral is finite. -/
theorem isFinite_scaled {n : Numeral} {x : Number} (h : n.scaled? = some x) : x.isFinite := by
  obtain ⟨scaled, hscaled, rfl⟩ := Option.map_eq_some_iff.mp h
  have whole : (takeDigits 0 n.whole).1 < wordBound := takeDigits_lt (by decide) n.whole
  have significand := takeDigits_lt whole n.fraction
  exact Number.isFinite_withSign n.negative
    (isFinite_scale (Number.isFinite_ofNat significand.le) hscaled)

private theorem every_inRange_toJson (n : Numeral) : n.toJson.Every InRange := by
  unfold Numeral.toJson
  dsimp only
  generalize (if n.negative then -(digitsValue n.whole : Int) else digitsValue n.whole) = value
  split
  · next h =>
    simp only [Bool.and_eq_true, decide_eq_true_eq] at h
    exact every_leaf trivial ⟨h.1.2, h.2⟩
  · cases hscaled : n.scaled? with
    | some x => exact every_leaf trivial (isFinite_scaled hscaled)
    | none => exact every_leaf trivial trivial

private theorem every_inRange_ofMembers {members : List (Option String × Json)}
    (h : ∀ member ∈ members, member.2.Every InRange) : (ofMembers members).Every InRange := by
  unfold ofMembers
  split
  · next read =>
    refine every_object.mpr fun member hm => ?_
    obtain ⟨before, hb, hmember⟩ := exists_of_mem_mapM read member hm
    obtain ⟨key, _, rfl⟩ := Option.map_eq_some_iff.mp hmember
    exact h before hb
  · exact every_leaf trivial trivial

section Reading

variable {fuel : Nat}

private theorem inRange_value
    (items : ∀ {cs found rest}, readItems? fuel cs = some (found, rest) →
      ∀ item ∈ found, item.Every InRange)
    (members : ∀ {cs found rest}, readMembers? fuel cs = some (found, rest) →
      ∀ member ∈ found, member.2.Every InRange)
    {cs rest : List Char} {j : Json} (h : readValue? (fuel + 1) cs = some (j, rest)) :
    j.Every InRange := by
  rw [readValue?] at h
  split at h
  · cases h
    exact every_leaf trivial trivial
  · cases h
    exact every_leaf trivial trivial
  · cases h
    exact every_leaf trivial trivial
  · obtain ⟨⟨s, _⟩, _, h⟩ := Option.map_eq_some_iff.mp h
    cases h
    cases s <;> exact every_leaf trivial trivial
  · split at h
    · cases h
      exact every_array.mpr nofun
    · obtain ⟨⟨found, _⟩, hread, h⟩ := Option.map_eq_some_iff.mp h
      cases h
      exact every_array.mpr (items hread)
  · split at h
    · cases h
      exact every_object.mpr nofun
    · obtain ⟨⟨found, _⟩, hread, h⟩ := Option.map_eq_some_iff.mp h
      cases h
      exact every_inRange_ofMembers (members hread)
  · obtain ⟨⟨n, _⟩, _, h⟩ := Option.map_eq_some_iff.mp h
    cases h
    exact every_inRange_toJson n

variable (value : ∀ {cs rest j}, readValue? fuel cs = some (j, rest) → j.Every InRange)
include value

private theorem inRange_items
    (items : ∀ {cs found rest}, readItems? fuel cs = some (found, rest) →
      ∀ item ∈ found, item.Every InRange)
    {cs rest : List Char} {found : List Json} (h : readItems? (fuel + 1) cs = some (found, rest)) :
    ∀ item ∈ found, item.Every InRange := by
  obtain ⟨⟨first, after⟩, hfirst, h⟩ := Option.bind_eq_some_iff.mp h
  dsimp only at h
  split at h
  · obtain ⟨⟨others, _⟩, hothers, h⟩ := Option.bind_eq_some_iff.mp h
    cases h
    exact List.forall_mem_cons.mpr ⟨value hfirst, items hothers⟩
  · cases h
    exact List.forall_mem_singleton.mpr (value hfirst)
  · cases h

private theorem inRange_members
    (members : ∀ {cs found rest}, readMembers? fuel cs = some (found, rest) →
      ∀ member ∈ found, member.2.Every InRange)
    {cs rest : List Char} {found : List (Option String × Json)}
    (h : readMembers? (fuel + 1) cs = some (found, rest)) :
    ∀ member ∈ found, member.2.Every InRange := by
  rw [readMembers?] at h
  split at h
  · obtain ⟨⟨key, after⟩, _, h⟩ := Option.bind_eq_some_iff.mp h
    dsimp only at h
    split at h
    · obtain ⟨⟨v, after⟩, hvalue, h⟩ := Option.bind_eq_some_iff.mp h
      dsimp only at h
      split at h
      · obtain ⟨⟨others, _⟩, hothers, h⟩ := Option.bind_eq_some_iff.mp h
        cases h
        exact List.forall_mem_cons.mpr ⟨value hvalue, members hothers⟩
      · cases h
        exact List.forall_mem_singleton.mpr (value hvalue)
      · cases h
    · cases h
  · cases h

end Reading

private theorem inRange_read (fuel : Nat) :
    (∀ {cs rest j}, readValue? fuel cs = some (j, rest) → j.Every InRange) ∧
    (∀ {cs found rest}, readItems? fuel cs = some (found, rest) →
      ∀ item ∈ found, item.Every InRange) ∧
    (∀ {cs found rest}, readMembers? fuel cs = some (found, rest) →
      ∀ member ∈ found, member.2.Every InRange) := by
  induction fuel with
  | zero => exact ⟨nofun, nofun, nofun⟩
  | succ fuel ih =>
    obtain ⟨value, items, members⟩ := ih
    exact ⟨inRange_value items members, inRange_items value items, inRange_members value members⟩

theorem every_inRange_of_parse? {text : String} {j : Json} (h : parse? text = some j) :
    j.Every InRange := by
  unfold parse? at h
  dsimp only at h
  split at h
  · next hread =>
    obtain ⟨_, h⟩ := Option.ite_none_right_eq_some.mp h
    cases h
    exact (inRange_read _).1 hread
  · cases h

end Json

end Pagewright
