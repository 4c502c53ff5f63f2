import Pagewright.Proofs.Forest.Recursion

/-! A block of siblings replaced somewhere in a forest, everything around it kept. Taking,
changing and inserting are all of this kind, so what a replacement does to ids and recorded
parents is said here once. -/

namespace Pagewright

namespace Forest

/-- One forest is another with a block of siblings, at some depth, replaced by other siblings. -/
inductive Replaces (old new : List Element) : Forest → Forest → Prop where
  | here (before after : List Element) :
      Replaces old new (before ++ old ++ after) (before ++ new ++ after)
  | within (before : List Element) (e : Element) (after : List Element) {children : List Element} :
      Replaces old new e.children children →
      Replaces old new (before ++ e :: after) (before ++ { e with children := children } :: after)

namespace Replaces

variable {old new forest changed : List Element}

theorem cons (e : Element) (h : Replaces old new forest changed) :
    Replaces old new (e :: forest) (e :: changed) := by
  cases h with
  | here before after => exact .here (e :: before) after
  | within before sibling after h => exact .within (e :: before) sibling after h

theorem children {e : Element} {below : List Element} (h : Replaces old new e.children below)
    (rest : List Element) : Replaces old new (e :: rest) ({ e with children := below } :: rest) :=
  .within [] e rest h

/-- A replacement among the children of an element, where that element alone is replaced. -/
theorem deepen {e : Element} {below : List Element}
    (h : Replaces [e] [{ e with children := below }] forest changed)
    (hc : Replaces old new e.children below) : Replaces old new forest changed := by
  induction h with
  | here before after => simpa using Replaces.within before e after hc
  | within before parent after _ ih => exact .within before parent after ih

end Replaces

/-- The ids of a forest, in document order. -/
def ids (forest : Forest) : List String := (preorder forest).map Element.id

@[simp] theorem ids_nil : ids [] = [] := by simp [ids, preorder]

@[simp] theorem ids_cons (e : Element) (rest : Forest) :
    ids (e :: rest) = e.id :: (ids e.children ++ ids rest) := by
  simp [ids, preorder_cons]

theorem preorder_append (left right : Forest) :
    preorder (left ++ right) = preorder left ++ preorder right := by
  induction left with
  | nil => simp [preorder]
  | cons e rest ih => simp [preorder_cons, ih]

@[simp] theorem ids_append (left right : Forest) : ids (left ++ right) = ids left ++ ids right := by
  simp [ids, preorder_append]

namespace Replaces

variable {old new forest changed : List Element}

/-- What is replaced is part of the forest. -/
theorem mem_preorder (h : Replaces old new forest changed) {e : Element} (he : e ∈ old) :
    e ∈ preorder forest := by
  induction h with
  | here before after =>
    obtain ⟨left, right, rfl⟩ := List.append_of_mem he
    simp [preorder_append, preorder_cons]
  | within before parent after _ ih => simp [preorder_append, preorder_cons, ih]

/-- The replaced ids go and the new ones come; all others stay. -/
theorem count_ids (h : Replaces old new forest changed) (id : String) :
    (ids forest).count id + (ids new).count id = (ids changed).count id + (ids old).count id := by
  induction h with
  | here before after =>
    simp only [ids_append, List.count_append]
    omega
  | within before e after _ ih =>
    simp only [ids_append, ids_cons, List.count_append, List.count_cons]
    omega

end Replaces

end Forest

end Pagewright
