import Mathlib.Algebra.GroupWithZero.Nat
import Pagewright.Proofs.Forest.Places

/-!
One walk visits the elements of a forest in document order, each at its own address. Finding,
changing, testing, counting and removing go through the forest in ways of their own, and what they
come to is said here by these visits.
-/

namespace Pagewright

namespace Element

/-- The element at an address below an element: the indexes of a child, of a child of that one,
and so on. -/
def at? (e : Element) : List Nat → Option Element
  | [] => some e
  | index :: below => e.children[index]?.bind fun child => child.at? below

/-- Changes the element at an address. -/
def changeAt (f : Element → Element) (e : Element) : List Nat → Element
  | [] => f e
  | index :: below =>
    { e with children := e.children.modify index fun child => child.changeAt f below }

end Element

namespace Forest

/-- The element at an address in a forest, which begins with the index of a root. -/
def at? (forest : Forest) : List Nat → Option Element
  | [] => none
  | index :: below => forest[index]?.bind fun root => root.at? below

/-- Changes the element at an address. -/
def changeAt (f : Element → Element) (forest : Forest) : List Nat → Forest
  | [] => forest
  | index :: below => forest.modify index fun root => root.changeAt f below

end Forest

mutual

/-- An element and its descendants in document order, each with its address below the element. -/
def Element.visits : Element → List (List Nat × Element)
  | e@⟨_, _, _, _, _, _, _, children, _⟩ => ([], e) :: Forest.visits children

/-- All elements of a forest in document order, each with its address. -/
def Forest.visits : List Element → List (List Nat × Element)
  | [] => []
  | e :: rest =>
    e.visits.map (Prod.map (0 :: ·) id) ++
      (Forest.visits rest).map (Prod.map (List.modifyHead (· + 1)) id)

end

namespace Forest

variable {forest : Forest} {test : Element → Bool}

theorem visits_cons (e : Element) (rest : Forest) : visits (e :: rest) =
    ([0], e) :: ((visits e.children).map (Prod.map (0 :: ·) id) ++
      (visits rest).map (Prod.map (List.modifyHead (· + 1)) id)) := by
  cases e
  simp only [visits, Element.visits, List.map_cons, List.cons_append, Prod.map_apply, id_eq]

/-- Without their addresses, the visits are the elements in document order. -/
theorem map_snd_visits (forest : Forest) : (visits forest).map Prod.snd = preorder forest := by
  induction forest using Forest.induction with
  | nil => simp only [visits, preorder, List.map_nil]
  | cons e rest below beside =>
    have hmap (f : List Nat → List Nat) : Prod.snd ∘ Prod.map f (id : Element → Element) =
        Prod.snd := rfl
    rw [visits_cons, preorder_cons, List.map_cons, List.map_append, List.map_map, List.map_map,
      hmap, hmap, below, beside]

/-- No element has the empty address. -/
theorem exists_cons_of_at? {address : List Nat} {found : Element}
    (h : forest.at? address = some found) : ∃ index below, address = index :: below := by
  cases address with
  | nil => cases h
  | cons index below => exact ⟨index, below, rfl⟩

/-- Every element is visited at its address, and nothing is visited elsewhere. -/
theorem mem_visits_iff {address : List Nat} {found : Element} :
    (address, found) ∈ visits forest ↔ forest.at? address = some found := by
  induction forest using Forest.induction generalizing address with
  | nil => cases address <;> simp [visits, at?]
  | cons e rest below beside =>
    have hbelow : (address, found) ∈ (visits e.children).map (Prod.map (0 :: ·) id) ↔
        ∃ inner, Forest.at? e.children inner = some found ∧ address = 0 :: inner := by
      simp [← below, eq_comm]
    have hbeside : (address, found) ∈ (visits rest).map (Prod.map (List.modifyHead (· + 1)) id) ↔
        ∃ index inner, Forest.at? rest (index :: inner) = some found ∧
          address = (index + 1) :: inner := by
      simp only [List.mem_map, Prod.exists, Prod.map_apply, id_eq, Prod.mk.injEq]
      constructor
      · rintro ⟨shifted, _, hm, rfl, rfl⟩
        obtain ⟨index, inner, rfl⟩ := exists_cons_of_at? (beside.mp hm)
        exact ⟨index, inner, beside.mp hm, rfl⟩
      · rintro ⟨index, inner, hat, rfl⟩
        exact ⟨index :: inner, found, beside.mpr hat, rfl, rfl⟩
    rw [visits_cons, List.mem_cons, List.mem_append, hbelow, hbeside]
    match address with
    | [] => simp [at?]
    | [0] => simp [at?, Element.at?, eq_comm]
    | 0 :: index :: inner => simp [at?, Element.at?]
    | (index + 1) :: inner => simp [at?]

/-- Finding goes through the elements in document order. -/
theorem find?_eq (id : String) (forest : Forest) :
    find? id forest = (preorder forest).find? fun e => e.id = id := by
  induction forest using Forest.induction with
  | nil => simp [find?, preorder]
  | cons e rest below beside =>
    rw [find?_cons, preorder_cons, List.find?_cons, List.find?_append, below, beside]
    by_cases h : e.id = id <;> simp [h]

/-- Changing acts at the address of the first visit to an element with the id. -/
theorem modify?_eq (id : String) (f : Element → Element) (forest : Forest) :
    modify? id f forest = ((visits forest).find? fun visit => visit.2.id = id).map
      fun visit => forest.changeAt f visit.1 := by
  induction forest using Forest.induction with
  | nil => simp [modify?, visits]
  | cons e rest below beside =>
    have visited {forest : Forest} {visit : List Nat × Element}
        (h : visit ∈ (visits forest).find? fun visit => visit.2.id = id) :
        ∃ index inner, visit.1 = index :: inner :=
      exists_cons_of_at? (mem_visits_iff.mp (List.mem_of_find?_eq_some h))
    rw [modify?_cons, visits_cons, List.find?_cons, List.find?_append, List.find?_map,
      List.find?_map, below, beside]
    by_cases h : e.id = id
    · simp [h, changeAt, Element.changeAt]
    · simp only [h, if_false, decide_false, Option.map_or, Option.map_map]
      congr 1
      · refine Option.map_congr fun visit hvisit => ?_
        obtain ⟨index, inner, haddress⟩ := visited hvisit
        simp [haddress, changeAt, Element.changeAt]
      · refine Option.map_congr fun visit hvisit => ?_
        obtain ⟨index, inner, haddress⟩ := visited hvisit
        simp [haddress, changeAt]

theorem anyNode_iff : anyNode test forest ↔ ∃ e ∈ preorder forest, test e := by
  induction forest using Forest.induction with
  | nil =>
    rw [anyNode, preorder]
    simp
  | cons e rest below beside =>
    have hnode : e.anyNode test = (test e || anyNode test e.children) := by
      cases e
      rw [Element.anyNode]
    rw [anyNode, hnode, Bool.or_eq_true, Bool.or_eq_true, below, beside, preorder_cons]
    simp only [List.exists_mem_cons_iff, List.mem_append, or_and_right, exists_or, or_assoc]

theorem containsKind_iff {kind : ElementKind} :
    containsKind kind forest ↔ ∃ e ∈ preorder forest, e.kind = kind := by
  simp only [containsKind, anyNode_iff, decide_eq_true_eq]

theorem containsInteractive_iff : containsInteractive forest ↔
    ∃ e ∈ preorder forest, e.kind ∈ [.button, .form, .input] := by
  simp [containsInteractive, anyNode_iff, ElementKind.isInteractive, or_assoc]

/-- The size of a forest is that of its roots together. -/
theorem size_eq_sum (forest : Forest) : size forest = (forest.map Element.size).sum := by
  induction forest with
  | nil => simp [size]
  | cons e rest ih => simp [size, ih]

end Forest

namespace ForestEdit

open Forest (ids preorder visits)

/-- With distinct ids there is one element to remove, the one that finding gives. -/
theorem remove_on_of_nodup {forest : Forest} (hnodup : (ids forest).Nodup) (id : String) :
    ((remove id).on forest).1 =
      match Forest.find? id forest with
      | some e => .ok e
      | none => .error (.elementNotFound id) := by
  rw [remove_on]
  cases ht : Forest.take? id forest with
  | none =>
    have hnone : Forest.find? id forest = none :=
      Forest.find?_eq_none_iff.mpr (Forest.take?_eq_none_iff.mp ht)
    simp only [hnone]
  | some result =>
    obtain ⟨hid, hrep⟩ := Forest.take?_some ht
    have hfind := Forest.find?_eq_of_mem (hrep.mem_preorder List.mem_cons_self) hnodup
    rw [hid] at hfind
    simp only [hfind]

/-- All walks of a forest see one document order. The visits go through it and come to every element
at its address. Finding gives the first element with the id in that order, and changing acts at the
address of the same element; each of the tests holds when it holds of some element that is visited;
the sizes of the roots add up to the number of visits. When the ids are distinct, removing gives
the element that finding gives, and fails when finding gives none. -/
theorem traversals_share_order (forest : Forest) :
    ((visits forest).map Prod.snd = preorder forest ∧
      ∀ address e, (address, e) ∈ visits forest ↔ forest.at? address = some e) ∧
    (∀ id, Forest.find? id forest = (preorder forest).find? fun e => e.id = id) ∧
    (∀ id f, Forest.modify? id f forest =
      ((visits forest).find? fun visit => visit.2.id = id).map
        fun visit => forest.changeAt f visit.1) ∧
    (∀ kind, Forest.containsKind kind forest ↔ ∃ e ∈ preorder forest, e.kind = kind) ∧
    (Forest.containsInteractive forest ↔
      ∃ e ∈ preorder forest, e.kind ∈ [.button, .form, .input]) ∧
    (preorder forest).length = (forest.map Element.size).sum ∧
    ((ids forest).Nodup → ∀ id, ((remove id).on forest).1 =
      match Forest.find? id forest with
      | some e => .ok e
      | none => .error (.elementNotFound id)) := by
  refine ⟨⟨Forest.map_snd_visits forest, fun _ _ => Forest.mem_visits_iff⟩,
    fun id => Forest.find?_eq id forest, fun id f => Forest.modify?_eq id f forest,
    fun _ => Forest.containsKind_iff, Forest.containsInteractive_iff, ?_, remove_on_of_nodup⟩
  rw [Forest.length_preorder, Forest.size_eq_sum]

/-- A button under a box in a panel, with a text beside the panel. -/
private def panelLayout : Forest :=
  let box := (Element.bare "box" .container).withChild (Element.bare "save" .button)
  [(Element.bare "panel" .container).withChild box, Element.bare "note" .text]

/-- The button is found, changed and removed at the first child of the first child of the panel. -/
theorem panel_traversals_share_order :
    (ids panelLayout).Nodup ∧ ids panelLayout = ["panel", "box", "save", "note"] ∧
    ∃ e, panelLayout.at? [0, 0, 0] = some e ∧ e.id = "save" ∧
      Forest.find? "save" panelLayout = some e ∧ ((remove "save").on panelLayout).1 = .ok e := by
  have hnodup : (ids panelLayout).Nodup := by decide
  refine ⟨hnodup, rfl, _, rfl, rfl, rfl, ?_⟩
  exact (traversals_share_order panelLayout).2.2.2.2.2.2 hnodup "save"

end ForestEdit

end Pagewright
