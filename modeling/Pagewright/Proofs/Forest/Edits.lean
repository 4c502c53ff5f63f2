import Pagewright.Proofs.Edit
import Pagewright.Proofs.Forest.Parents

/-! What finding, changing, taking and inserting do to a forest: when there is a result, and which
block of siblings the result replaces. -/

namespace Pagewright

namespace Forest

variable {forest changed : Forest}

theorem find?_eq_none_iff {id : String} : find? id forest = none ↔ id ∉ ids forest := by
  induction forest using Forest.induction with
  | nil => simp [find?]
  | cons e rest below beside =>
    rw [find?_cons]
    by_cases h : e.id = id
    · simp [h]
    · have h' : ¬ id = e.id := fun he => h he.symm
      simp [h, h', below, beside]

theorem find?_some {id : String} {e : Element} (h : find? id forest = some e) :
    e ∈ preorder forest ∧ e.id = id := by
  induction forest using Forest.induction with
  | nil => simp [find?] at h
  | cons root rest below beside =>
    rw [find?_cons] at h
    by_cases hr : root.id = id
    · rw [if_pos hr] at h
      cases h
      exact ⟨by simp [preorder_cons], hr⟩
    · rw [if_neg hr, Option.or_eq_some_iff] at h
      rcases h with h | ⟨_, h⟩
      · exact ⟨by simp [preorder_cons, (below h).1], (below h).2⟩
      · exact ⟨by simp [preorder_cons, (beside h).1], (beside h).2⟩

theorem modify?_eq_none_iff {id : String} {f : Element → Element} :
    modify? id f forest = none ↔ id ∉ ids forest := by
  induction forest using Forest.induction with
  | nil => simp [modify?]
  | cons e rest below beside =>
    rw [modify?_cons]
    by_cases h : e.id = id
    · simp [h]
    · have h' : ¬ id = e.id := fun he => h he.symm
      simp [h, h', below, beside]

/-- Changing reaches the element that finding gives, and nothing else. -/
theorem modify?_replaces {id : String} {f : Element → Element}
    (h : modify? id f forest = some changed) :
    ∃ e, find? id forest = some e ∧ Replaces [e] [f e] forest changed := by
  induction forest using Forest.induction generalizing changed with
  | nil => simp [modify?] at h
  | cons root rest below beside =>
    rw [modify?_cons] at h
    rw [find?_cons]
    by_cases hr : root.id = id
    · rw [if_pos hr] at h ⊢
      cases h
      exact ⟨root, rfl, .here [] rest⟩
    · rw [if_neg hr, Option.or_eq_some_iff, Option.map_eq_some_iff, Option.map_eq_none_iff] at h
      rw [if_neg hr]
      rcases h with ⟨children, hc, rfl⟩ | ⟨hc, h⟩
      · obtain ⟨e, he, hrep⟩ := below hc
        exact ⟨e, by rw [he, Option.some_or], hrep.children rest⟩
      · obtain ⟨others, ho, rfl⟩ := Option.map_eq_some_iff.mp h
        obtain ⟨e, he, hrep⟩ := beside ho
        have hn : find? id root.children = none :=
          find?_eq_none_iff.mpr (modify?_eq_none_iff.mp hc)
        exact ⟨e, by rw [hn, Option.none_or, he], hrep.cons root⟩

theorem takeRoot?_some {id : String} {found : Element} {rest : Forest}
    (h : takeRoot? id forest = some (found, rest)) :
    found.id = id ∧ Replaces [found] [] forest rest := by
  induction forest generalizing rest with
  | nil => simp [takeRoot?] at h
  | cons root others ih =>
    rw [takeRoot?] at h
    by_cases hr : root.id = id
    · rw [if_pos hr] at h
      cases h
      exact ⟨hr, .here [] others⟩
    · rw [if_neg hr] at h
      obtain ⟨⟨_, kept⟩, hk, he⟩ := Option.map_eq_some_iff.mp h
      cases he
      obtain ⟨hid, hrep⟩ := ih hk
      exact ⟨hid, hrep.cons root⟩

/-- Taking looks at the roots first, so what holds below them is needed only for the rest. -/
private theorem take?_some_of_below {id : String} {found : Element} {rest : Forest}
    (below : ∀ {kept}, takeBelow? id forest = some (found, kept) →
      found.id = id ∧ Replaces [found] [] forest kept)
    (h : take? id forest = some (found, rest)) :
    found.id = id ∧ Replaces [found] [] forest rest := by
  rw [take?] at h
  cases hroot : takeRoot? id forest with
  | some result =>
    rw [hroot] at h
    cases h
    exact takeRoot?_some hroot
  | none =>
    rw [hroot] at h
    exact below h

private theorem takeBelow?_some {id : String} {found : Element} {rest : Forest}
    (h : takeBelow? id forest = some (found, rest)) :
    found.id = id ∧ Replaces [found] [] forest rest := by
  induction forest using Forest.induction generalizing rest with
  | nil => simp [takeBelow?] at h
  | cons root others below beside =>
    rw [takeBelow?_cons, Option.or_eq_some_iff] at h
    rcases h with h | ⟨_, h⟩
    · obtain ⟨⟨_, children⟩, hc, he⟩ := Option.map_eq_some_iff.mp h
      cases he
      obtain ⟨hid, hrep⟩ := take?_some_of_below below hc
      exact ⟨hid, hrep.children others⟩
    · obtain ⟨⟨_, kept⟩, hk, he⟩ := Option.map_eq_some_iff.mp h
      cases he
      obtain ⟨hid, hrep⟩ := beside hk
      exact ⟨hid, hrep.cons root⟩

/-- Taking removes one element with the id, together with its whole subtree. -/
theorem take?_some {id : String} {found : Element} {rest : Forest}
    (h : take? id forest = some (found, rest)) :
    found.id = id ∧ Replaces [found] [] forest rest :=
  take?_some_of_below takeBelow?_some h

private theorem take?_cons_eq_none {id : String} {e : Element} {rest : Forest} :
    take? id (e :: rest) = none ↔
      e.id ≠ id ∧ take? id e.children = none ∧ take? id rest = none := by
  have split (forest : Forest) : take? id forest = none ↔
      takeRoot? id forest = none ∧ takeBelow? id forest = none := by
    rw [take?]
    cases takeRoot? id forest <;> simp
  rw [split (e :: rest), split rest, takeRoot?, takeBelow?_cons]
  by_cases h : e.id = id
  · simp [h]
  · rw [if_neg h, Option.map_eq_none_iff, Option.or_eq_none_iff, Option.map_eq_none_iff,
      Option.map_eq_none_iff, and_left_comm]
    exact ⟨fun hc => ⟨h, hc⟩, fun hc => hc.2⟩

theorem take?_eq_none_iff {id : String} : take? id forest = none ↔ id ∉ ids forest := by
  induction forest using Forest.induction with
  | nil => simp [take?, takeRoot?, takeBelow?]
  | cons e rest below beside =>
    rw [take?_cons_eq_none, below, beside]
    simp only [ids_cons, List.mem_cons, List.mem_append, not_or, ne_eq, eq_comm]

private theorem insertIdx_of_le_length (e : Element) :
    ∀ (siblings : Forest) {n : Nat}, n ≤ siblings.length →
      siblings.insertIdx n e = siblings.take n ++ e :: siblings.drop n
  | _, 0, _ => rfl
  | root :: rest, n + 1, h => by
    have ih := insertIdx_of_le_length e rest (Nat.le_of_succ_le_succ h)
    simp [List.insertIdx_succ_cons, ih]

/-- Placing splits the siblings at the index, or behind the last one. -/
theorem place_eq (index : Option Nat) (e : Element) (siblings : Forest) :
    place index e siblings =
      siblings.take (min (index.getD siblings.length) siblings.length) ++
        e :: siblings.drop (min (index.getD siblings.length) siblings.length) :=
  insertIdx_of_le_length e siblings (Nat.min_le_right _ _)

private theorem place_split (index : Option Nat) (e : Element) (siblings : Forest) :
    ∃ before after, siblings = before ++ after ∧
      place index e siblings = before ++ e :: after :=
  ⟨_, _, (List.take_append_drop _ siblings).symm, place_eq index e siblings⟩

theorem place_replaces (index : Option Nat) (e : Element) (siblings : Forest) :
    Replaces [] [e] siblings (place index e siblings) := by
  obtain ⟨before, after, hs, hp⟩ := place_split index e siblings
  have h : Replaces [] [e] (before ++ [] ++ after) (before ++ [e] ++ after) := .here before after
  rw [hp, hs]
  simpa using h

theorem insert?_eq_none_iff {parent : Option String} {index : Option Nat} {e : Element} :
    insert? parent index e forest = none ↔ ∃ id, parent = some id ∧ id ∉ ids forest := by
  cases parent <;> simp [insert?, modify?_eq_none_iff]

/-- Inserting adds the element to some siblings. -/
theorem insert?_replaces {parent : Option String} {index : Option Nat} {e : Element}
    (h : insert? parent index e forest = some changed) : Replaces [] [e] forest changed := by
  cases parent with
  | none =>
    cases h
    exact place_replaces index e forest
  | some id =>
    obtain ⟨p, _, hrep⟩ := modify?_replaces h
    exact hrep.deepen (place_replaces index e p.children)

/-- An inserted element that records its new parent leaves all recorded parents right. -/
theorem checkParents_insert? {parent : Option String} {index : Option Nat} {e : Element}
    (h : insert? parent index e forest = some changed)
    (he : checkParentsUnder parent [e] = .ok ()) (ok : checkParents forest = .ok ()) :
    checkParents changed = .ok () := by
  have placed {siblings : Forest} (hs : checkParentsUnder parent siblings = .ok ()) :
      checkParentsUnder parent (place index e siblings) = .ok () := by
    obtain ⟨before, after, rfl, hp⟩ := place_split index e siblings
    rw [checkParentsUnder_append] at hs
    rw [hp, checkParentsUnder_append, checkParentsUnder_cons]
    exact ⟨hs.1, (checkParentsUnder_cons.mp he).1, hs.2⟩
  cases parent with
  | none =>
    cases h
    exact placed ok
  | some id =>
    obtain ⟨p, hp, hrep⟩ := modify?_replaces h
    refine hrep.checkParentsUnder ?_ ok
    intro q hq
    rw [checkParentsUnder_cons] at hq ⊢
    have hid : p.id = id := (find?_some hp).2
    subst hid
    exact ⟨⟨hq.1.1, placed hq.1.2⟩, hq.2⟩

end Forest

namespace ForestEdit

variable {forest : Forest}

theorem insert_on (parent : Option String) (index : Option Nat) (e : Element) (forest : Forest) :
    (insert parent index e).on forest =
      match Forest.insert? parent index (e.adopt parent) forest with
      | some changed => (.ok (), changed)
      | none => (.error (.elementNotFound (parent.getD "")), forest) := by
  simp only [insert, Edit.on_bind, Edit.on_get]
  cases Forest.insert? parent index (e.adopt parent) forest <;> simp

theorem remove_on (id : String) (forest : Forest) : (remove id).on forest =
    match Forest.take? id forest with
    | some (removed, rest) => (.ok removed, rest)
    | none => (.error (.elementNotFound id), forest) := by
  simp only [remove, Edit.on_bind, Edit.on_get]
  cases Forest.take? id forest <;> simp

theorem updateStyles_on (id : String) (styles : List (String × Scalar)) (forest : Forest) :
    (updateStyles id styles).on forest =
      match Forest.modify? id (fun e => { e with styles := e.styles.insertAll styles }) forest with
      | some changed => (.ok (), changed)
      | none => (.error (.elementNotFound id), forest) := by
  simp only [updateStyles, Edit.on_bind, Edit.on_get]
  cases Forest.modify? id _ forest <;> simp

/-- The check before a move looks at the forest and changes nothing. -/
theorem checkTarget_on (id target : String) (forest : Forest) :
    (checkTarget id target).on forest =
      (match Forest.find? id forest with
        | none => .error (.elementNotFound id)
        | some moving =>
          if (moving.find? target).isSome then .error (.moveIntoDescendant id target)
          else if (Forest.find? target forest).isNone then .error (.elementNotFound target)
          else .ok (), forest) := by
  simp only [checkTarget, Edit.on_bind, Edit.on_get]
  cases Forest.find? id forest with
  | none => simp
  | some moving =>
    by_cases hd : (moving.find? target).isSome
    · simp [hd]
    · by_cases ht : (Forest.find? target forest).isNone <;> simp [hd, ht]

/-- Without a target, a move is a removal and an insertion. -/
theorem move_root_on (id : String) (index : Option Nat) (forest : Forest) :
    (move id none index).on forest =
      match Forest.take? id forest with
      | some (taken, rest) => (insert none index taken).on rest
      | none => (.error (.elementNotFound id), forest) := by
  simp only [move, Edit.on_bind, remove_on]
  cases Forest.take? id forest <;> rfl

/-- A move below a target is a removal and an insertion if the check passes, and else nothing. -/
theorem move_below_on (id target : String) (index : Option Nat) (forest : Forest) :
    (move id (some target) index).on forest =
      match ((checkTarget id target).on forest).1 with
      | .error fault => (.error fault, forest)
      | .ok () =>
        match Forest.take? id forest with
        | some (taken, rest) => (insert (some target) index taken).on rest
        | none => (.error (.elementNotFound id), forest) := by
  obtain ⟨result, hc⟩ : ∃ result, (checkTarget id target).on forest = (result, forest) :=
    ⟨_, checkTarget_on id target forest⟩
  simp only [move, Edit.on_bind, hc, remove_on]
  cases result with
  | error fault => rfl
  | ok _ => cases h : Forest.take? id forest <;> simp only [h]

/-- A move does nothing, or its check passes, it takes the element out and goes on as an
insertion. -/
theorem move_on_cases (id : String) (parent : Option String) (index : Option Nat)
    (forest : Forest) :
    ((move id parent index).on forest).2 = forest ∨
      ∃ taken rest,
        (∀ target, parent = some target → ((checkTarget id target).on forest).1 = .ok ()) ∧
        Forest.take? id forest = some (taken, rest) ∧
        (move id parent index).on forest = (insert parent index taken).on rest := by
  cases parent with
  | none =>
    rw [move_root_on]
    cases Forest.take? id forest with
    | none => exact .inl rfl
    | some result => exact .inr ⟨result.1, result.2, nofun, rfl, rfl⟩
  | some target =>
    rw [move_below_on]
    cases hc : ((checkTarget id target).on forest).1 with
    | error fault => exact .inl rfl
    | ok _ =>
      cases Forest.take? id forest with
      | none => exact .inl rfl
      | some result =>
        refine .inr ⟨result.1, result.2, ?_, rfl, rfl⟩
        rintro _ ⟨⟩
        exact hc

end ForestEdit

end Pagewright
