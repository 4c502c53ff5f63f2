import Pagewright.Json.Basic

/-! Documents as trees: induction over them, what stands at their leaves, and how deep they are. -/

namespace Pagewright

namespace Json

/-- A document that is neither an array nor an object. -/
def IsLeaf : Json → Prop
  | .array _ => False
  | .object _ => False
  | _ => True

/-- Induction on a document: a leaf, or an array or object of documents that have the property. -/
theorem induction {motive : Json → Prop} (leaf : ∀ j, IsLeaf j → motive j)
    (array : ∀ items, (∀ item ∈ items, motive item) → motive (.array items))
    (object : ∀ members, (∀ member ∈ members, motive member.2) → motive (.object members))
    (j : Json) : motive j := by
  cases j with
  | array items => exact array items fun item hm => induction leaf array object item
  | object members => exact object members fun member hm => induction leaf array object member.2
  | _ => exact leaf _ trivial
termination_by sizeOf j
decreasing_by
  · have smaller := List.sizeOf_lt_of_mem hm
    simp
    omega
  · have smaller := List.sizeOf_lt_of_mem hm
    obtain ⟨key, value⟩ := member
    simp at smaller ⊢
    omega

mutual

/-- The leaves of a document, in order. -/
def leaves : Json → List Json
  | .array items => leavesOfItems items
  | .object members => leavesOfMembers members
  | j => [j]

def leavesOfItems : List Json → List Json
  | [] => []
  | item :: rest => item.leaves ++ leavesOfItems rest

def leavesOfMembers : List (String × Json) → List Json
  | [] => []
  | (_, value) :: rest => value.leaves ++ leavesOfMembers rest

end

theorem mem_leaves_array {leaf : Json} {items : List Json} :
    leaf ∈ (Json.array items).leaves ↔ ∃ item ∈ items, leaf ∈ item.leaves := by
  rw [leaves]
  induction items with
  | nil => simp [leavesOfItems]
  | cons item rest ih => simp [leavesOfItems, ih]

theorem mem_leaves_object {leaf : Json} {members : List (String × Json)} :
    leaf ∈ (Json.object members).leaves ↔ ∃ member ∈ members, leaf ∈ member.2.leaves := by
  rw [leaves]
  induction members with
  | nil => simp [leavesOfMembers]
  | cons member rest ih => simp [leavesOfMembers, ih]

/-- All leaves of a document have a property. -/
def Every (p : Json → Prop) (j : Json) : Prop := ∀ leaf ∈ j.leaves, p leaf

section Every

variable {p : Json → Prop} {items : List Json} {members : List (String × Json)}

theorem leaves_of_isLeaf {j : Json} (h : j.IsLeaf) : j.leaves = [j] := by
  cases j with
  | array items => exact h.elim
  | object members => exact h.elim
  | _ => rfl

theorem every_leaf {j : Json} (hleaf : j.IsLeaf) (h : p j) : j.Every p := by
  intro leaf hl
  rw [leaves_of_isLeaf hleaf, List.mem_singleton] at hl
  rwa [hl]

theorem every_array : (Json.array items).Every p ↔ ∀ item ∈ items, item.Every p := by
  simp only [Every, mem_leaves_array]
  constructor
  · exact fun h item hitem leaf hleaf => h leaf ⟨item, hitem, hleaf⟩
  · rintro h leaf ⟨item, hitem, hleaf⟩
    exact h item hitem leaf hleaf

theorem every_object :
    (Json.object members).Every p ↔ ∀ member ∈ members, member.2.Every p := by
  simp only [Every, mem_leaves_object]
  constructor
  · exact fun h member hmember leaf hleaf => h leaf ⟨member, hmember, hleaf⟩
  · rintro h leaf ⟨member, hmember, hleaf⟩
    exact h member hmember leaf hleaf

end Every

mutual

/-- How many arrays and objects stand inside each other at most. -/
def depth : Json → Nat
  | .array items => depthOfItems items + 1
  | .object members => depthOfMembers members + 1
  | _ => 0

def depthOfItems : List Json → Nat
  | [] => 0
  | item :: rest => max item.depth (depthOfItems rest)

def depthOfMembers : List (String × Json) → Nat
  | [] => 0
  | (_, value) :: rest => max value.depth (depthOfMembers rest)

end

theorem depth_array_le {items : List Json} {limit : Nat} :
    (Json.array items).depth ≤ limit ↔
      ∃ inner, limit = inner + 1 ∧ ∀ item ∈ items, item.depth ≤ inner := by
  have every (inner : Nat) : depthOfItems items ≤ inner ↔ ∀ item ∈ items, item.depth ≤ inner := by
    induction items with
    | nil => simp [depthOfItems]
    | cons item rest ih => rw [depthOfItems, Nat.max_le, ih, List.forall_mem_cons]
  rw [depth]
  cases limit with
  | zero => simp
  | succ inner => simp [every]

theorem depth_object_le {members : List (String × Json)} {limit : Nat} :
    (Json.object members).depth ≤ limit ↔
      ∃ inner, limit = inner + 1 ∧ ∀ member ∈ members, member.2.depth ≤ inner := by
  have every (inner : Nat) :
      depthOfMembers members ≤ inner ↔ ∀ member ∈ members, member.2.depth ≤ inner := by
    induction members with
    | nil => simp [depthOfMembers]
    | cons member rest ih => rw [depthOfMembers, Nat.max_le, ih, List.forall_mem_cons]
  rw [depth]
  cases limit with
  | zero => simp
  | succ inner => simp [every]

end Json

end Pagewright
