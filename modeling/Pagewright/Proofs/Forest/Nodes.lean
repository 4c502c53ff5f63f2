import Pagewright.Proofs.Dict
import Pagewright.Proofs.Forest.Undo

/-!
The nodes of a forest in document order, each without its children. Inserting puts one block of
nodes in, removing takes one out, moving does both, and changing styles changes a single node. This
needs no distinct ids.
-/

namespace Pagewright

namespace Element

/-- The element without its children: its own fields and the parent that it records. -/
def node (e : Element) : Element := { e with children := [] }

/-- The own fields of an element, whatever its children and the parent that it records. -/
def own (e : Element) : Element := { e with children := [], parentId := none }

end Element

namespace Forest

def nodes (forest : Forest) : List Element := (preorder forest).map Element.node

/-- Of two lists of nodes, the second has a block more, in one piece, and is the same around it. -/
def Spliced (block small large : List Element) : Prop :=
  ∃ before after, small = before ++ after ∧ large = before ++ block ++ after

variable {forest changed : Forest}

@[simp] theorem nodes_nil : nodes [] = [] := by simp [nodes, preorder]

theorem nodes_cons (e : Element) (rest : Forest) :
    nodes (e :: rest) = e.node :: (nodes e.children ++ nodes rest) := by
  simp [nodes, preorder_cons]

theorem nodes_append (left right : Forest) : nodes (left ++ right) = nodes left ++ nodes right := by
  simp [nodes, preorder_append]

/-- Replacing siblings replaces their nodes, in one block, and no others. -/
theorem Replaces.exists_nodes {old new : List Element} (h : Replaces old new forest changed) :
    ∃ before after, nodes forest = before ++ nodes old ++ after ∧
      nodes changed = before ++ nodes new ++ after := by
  induction h with
  | here before after =>
    exact ⟨nodes before, nodes after, by simp [nodes_append], by simp [nodes_append]⟩
  | within before e after _ ih =>
    obtain ⟨left, right, hforest, hchanged⟩ := ih
    refine ⟨nodes before ++ e.node :: left, right ++ nodes after, ?_, ?_⟩
    · simp [nodes_append, nodes_cons, hforest]
    · simp [nodes_append, nodes_cons, hchanged, Element.node]

theorem Replaces.spliced {block : List Element} (h : Replaces [] block forest changed) :
    Spliced (nodes block) (nodes forest) (nodes changed) := by
  obtain ⟨before, after, hforest, hchanged⟩ := h.exists_nodes
  exact ⟨before, after, by simpa using hforest, hchanged⟩

/-- Adopting changes recorded parents alone. -/
theorem own_nodes_adopt (parent : Option String) (forest : Forest) :
    (nodes (adopt parent forest)).map Element.own = (nodes forest).map Element.own := by
  induction forest using Forest.induction generalizing parent with
  | nil => simp [adopt]
  | cons e rest below beside =>
    simp only [adopt, Element.adopt_eq, nodes_cons, List.map_cons, List.map_append, below, beside]
    rfl

/-- A change of an element's own fields changes the first node with the id. -/
theorem nodes_modify? {id : String} {f : Element → Element}
    (h : modify? id f forest = some changed) (hchildren : ∀ e, (f e).children = e.children) :
    ∃ before e after, nodes forest = before ++ e.node :: after ∧ e.id = id ∧
      (∀ other ∈ before, other.id ≠ id) ∧ nodes changed = before ++ (f e).node :: after := by
  induction forest using Forest.induction generalizing changed with
  | nil => simp [modify?] at h
  | cons root rest below beside =>
    rw [modify?_cons] at h
    by_cases hr : root.id = id
    · rw [if_pos hr] at h
      cases h
      refine ⟨[], root, nodes root.children ++ nodes rest, nodes_cons root rest, hr, ?_, ?_⟩
      · exact List.forall_mem_nil _
      rw [nodes_cons, hchildren]
      rfl
    · rw [if_neg hr, Option.or_eq_some_iff, Option.map_eq_some_iff, Option.map_eq_none_iff] at h
      rcases h with ⟨children, hc, rfl⟩ | ⟨hc, h⟩
      · obtain ⟨before, e, after, hold, hid, hfirst, hnew⟩ := below hc
        refine ⟨root.node :: before, e, after ++ nodes rest, ?_, hid, ?_, ?_⟩
        · simp [nodes_cons, hold]
        · exact List.forall_mem_cons.mpr ⟨hr, hfirst⟩
        · simp [nodes_cons, hnew, Element.node]
      · obtain ⟨others, ho, rfl⟩ := Option.map_eq_some_iff.mp h
        obtain ⟨before, e, after, hold, hid, hfirst, hnew⟩ := beside ho
        -- None of the children has the id, or they would have been changed.
        have hnone : ∀ other ∈ nodes root.children, other.id ≠ id := by
          rintro _ hm rfl
          obtain ⟨found, hfound, rfl⟩ := List.mem_map.mp hm
          exact modify?_eq_none_iff.mp hc (List.mem_map.mpr ⟨found, hfound, rfl⟩)
        refine ⟨root.node :: (nodes root.children ++ before), e, after, ?_, hid, ?_, ?_⟩
        · simp [nodes_cons, hold]
        · refine List.forall_mem_cons.mpr ⟨hr, fun other hm => ?_⟩
          exact (List.mem_append.mp hm).elim (hnone other) (hfirst other)
        · simp [nodes_cons, hnew]

end Forest

namespace ForestEdit

open Forest (ids nodes Spliced)

variable {forest changed rest : Forest} {id : String}

theorem insert_spliced {parent : Option String} {index : Option Nat} {e : Element}
    (h : Forest.insert? parent index (e.adopt parent) forest = some changed) :
    ∃ block, block.map Element.own = (nodes [e]).map Element.own ∧
      Spliced block (nodes forest) (nodes changed) := by
  refine ⟨nodes [e.adopt parent], ?_, (Forest.insert?_replaces h).spliced⟩
  rw [← Forest.adopt_singleton, Forest.own_nodes_adopt]

theorem take_spliced {e : Element} (h : Forest.take? id forest = some (e, rest)) :
    e.id = id ∧ Spliced (nodes [e]) (nodes rest) (nodes forest) := by
  obtain ⟨hid, hrep⟩ := Forest.take?_some h
  exact ⟨hid, hrep.symm.spliced⟩

/-- Every edit that succeeds keeps all nodes it is not about, in their order and with all their
fields, recorded parents included; also where ids are repeated. An insertion puts in one block, the
nodes of the element. A removal takes out one block, the nodes of the element with the id that it
gives back. A move takes out such a block and puts it in again. A change of styles changes the
first node with the id. -/
theorem edits_conserve_nodes (forest : Forest) :
    (∀ parent index e changed, (insert parent index e).on forest = (.ok (), changed) →
      ∃ block, block.map Element.own = (nodes [e]).map Element.own ∧
        Spliced block (nodes forest) (nodes changed)) ∧
    (∀ id e rest, (remove id).on forest = (.ok e, rest) →
      e.id = id ∧ Spliced (nodes [e]) (nodes rest) (nodes forest)) ∧
    (∀ id parent index changed, (move id parent index).on forest = (.ok (), changed) →
      ∃ e block rest, e.id = id ∧ Spliced (nodes [e]) rest (nodes forest) ∧
        block.map Element.own = (nodes [e]).map Element.own ∧ Spliced block rest (nodes changed)) ∧
    ∀ id styles changed, (updateStyles id styles).on forest = (.ok (), changed) →
      ∃ before node merged after, nodes forest = before ++ node :: after ∧ node.id = id ∧
        (∀ other ∈ before, other.id ≠ id) ∧
        nodes changed = before ++ { node with styles := merged } :: after ∧
        merged.entries = node.styles.mergedEntries (.ofList styles) := by
  refine ⟨?insert, ?remove, ?move, ?updateStyles⟩
  case insert =>
    intro parent index e changed h
    rw [insert_on] at h
    split at h
    · next hi =>
      cases h
      exact insert_spliced hi
    · cases h
  case remove =>
    intro id e rest h
    rw [remove_on] at h
    split at h
    · next ht =>
      cases h
      exact take_spliced ht
    · cases h
  case move =>
    intro id parent index changed h
    obtain ⟨e, rest, moved, ht, hi, hm⟩ := move_on_ok (congrArg Prod.fst h)
    obtain rfl : moved = changed := congrArg Prod.snd (hm.symm.trans h)
    obtain ⟨hid, hcut⟩ := take_spliced ht
    obtain ⟨block, hblock, hpaste⟩ := insert_spliced hi
    exact ⟨e, block, nodes rest, hid, hcut, hblock, hpaste⟩
  case updateStyles =>
    intro id styles changed h
    rw [updateStyles_on] at h
    split at h
    · next hm =>
      cases h
      obtain ⟨before, e, after, hold, hid, hfirst, hnew⟩ := Forest.nodes_modify? hm fun _ => rfl
      exact ⟨before, e.node, _, after, hold, hid, hfirst, hnew, Dict.entries_insertAll _ _⟩
    · cases h

/-- Two elements with the id x: a text in a box, and a container with a text in it. -/
private def echoLayout : Forest :=
  [(Element.bare "box" .container).withChild (Element.bare "x" .text),
    (Element.bare "x" .container).withChild (Element.bare "y" .text)]

/-- The insertion goes below the first x, while the removal and the move take the second one. -/
theorem echo_nodes_conserved :
    ids echoLayout = ["box", "x", "x", "y"] ∧
    (∃ changed block,
      (insert (some "x") none (.bare "note" .text)).on echoLayout = (.ok (), changed) ∧
      ids changed = ["box", "x", "note", "x", "y"] ∧
      block.map Element.own = (nodes [.bare "note" .text]).map Element.own ∧
      Spliced block (nodes echoLayout) (nodes changed)) ∧
    (∃ e rest, (remove "x").on echoLayout = (.ok e, rest) ∧ ids rest = ["box", "x"] ∧
      e.id = "x" ∧ Spliced (nodes [e]) (nodes rest) (nodes echoLayout)) ∧
    (∃ changed e block rest, (move "x" (some "box") (some 0)).on echoLayout = (.ok (), changed) ∧
      ids changed = ["box", "x", "y", "x"] ∧ e.id = "x" ∧
      Spliced (nodes [e]) rest (nodes echoLayout) ∧
      block.map Element.own = (nodes [e]).map Element.own ∧ Spliced block rest (nodes changed)) ∧
    ∃ changed before node merged after,
      (updateStyles "x" [("color", .text "red")]).on echoLayout = (.ok (), changed) ∧
      nodes echoLayout = before ++ node :: after ∧ node.id = "x" ∧
      (∀ other ∈ before, other.id ≠ "x") ∧
      nodes changed = before ++ { node with styles := merged } :: after ∧
      merged.entries = node.styles.mergedEntries (.ofList [("color", .text "red")]) := by
  obtain ⟨inserted, removed, moved, styled⟩ := edits_conserve_nodes echoLayout
  refine ⟨rfl, ?_, ⟨_, _, rfl, rfl, removed "x" _ _ rfl⟩, ?_, ?_⟩
  · obtain ⟨block, h⟩ := inserted (some "x") none (.bare "note" .text) _ rfl
    exact ⟨_, block, rfl, rfl, h⟩
  · obtain ⟨e, block, rest, h⟩ := moved "x" (some "box") (some 0) _ rfl
    exact ⟨_, e, block, rest, rfl, rfl, h⟩
  · obtain ⟨before, node, merged, after, h⟩ := styled "x" [("color", .text "red")] _ rfl
    exact ⟨_, before, node, merged, after, rfl, h⟩

end ForestEdit

end Pagewright
