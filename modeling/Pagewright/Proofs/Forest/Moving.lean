import Pagewright.Proofs.Forest.Undo

/-!
What a move comes to, in a forest with distinct ids and right parents: which error, and if there is
none, where the element stands afterwards and that the forest without it is the same as before.
-/

namespace Pagewright

mutual

/-- An element without those of its descendants that have an id; each goes with its subtree. -/
def Element.without (id : String) : Element → Element
  | e@⟨_, _, _, _, _, _, _, children, _⟩ => { e with children := Forest.without id children }

/-- A forest without the elements that have an id; each goes with its subtree. -/
def Forest.without (id : String) : List Element → List Element
  | [] => []
  | e :: rest =>
    if e.id = id then Forest.without id rest else e.without id :: Forest.without id rest

end

theorem Element.without_eq (id : String) (e : Element) :
    e.without id = { e with children := Forest.without id e.children } := by
  cases e; simp only [without]

namespace Forest

/-- The siblings are all children of a parent in the forest, or all roots. -/
def HasSiblings (parent : Option String) (siblings forest : Forest) : Prop :=
  match parent with
  | none => siblings = forest
  | some id => ∃ p ∈ preorder forest, p.id = id ∧ p.children = siblings

/-- One forest is what a move of the element to an index below a parent makes of another: without
the element both are the same, no id comes or goes, and it stands there with its subtree. The index
counts the siblings that it finds there; without an index, and beyond the last, it comes last. -/
structure Moved (e : Element) (parent : Option String) (index : Option Nat)
    (forest changed : Forest) : Prop where
  without_eq : without e.id changed = without e.id forest
  ids_perm : (ids changed).Perm (ids forest)
  stands : ∃ before after, HasSiblings parent (before ++ after) (without e.id forest) ∧
    HasSiblings parent (before ++ { e with parentId := parent } :: after) changed ∧
    before.length = min (index.getD (before ++ after).length) (before ++ after).length

variable {id : String} {parent : Option String} {e : Element} {forest changed rest : Forest}

theorem without_eq_self (h : id ∉ ids forest) : without id forest = forest := by
  induction forest using Forest.induction with
  | nil => simp only [without]
  | cons root others below beside =>
    simp only [ids_cons, List.mem_cons, List.mem_append, not_or] at h
    rw [without, if_neg (Ne.symm h.1), Element.without_eq, below h.2.1, beside h.2.2]
    cases root
    rfl

theorem without_append (id : String) (left right : Forest) :
    without id (left ++ right) = without id left ++ without id right := by
  induction left with
  | nil => simp [without]
  | cons root others ih =>
    rw [List.cons_append, without, without, ih]
    split <;> rfl

/-- Without the element that fills a gap, a forest is the one with the gap. -/
theorem Gap.without_eq {top : Option String} {index : Nat}
    (h : Gap parent index e top rest forest) (hnew : e.id ∉ ids rest) :
    without e.id forest = rest := by
  induction h with
  | here before after _ =>
    rw [ids_append, List.mem_append, not_or] at hnew
    rw [without_append, without, if_pos rfl, without_eq_self hnew.1, without_eq_self hnew.2]
  | within before p after _ ih =>
    simp only [ids_append, ids_cons, List.mem_append, List.mem_cons, not_or] at hnew
    obtain ⟨hbefore, hp, hbelow, hafter⟩ := hnew
    rw [without_append, without, if_neg (Ne.symm hp), Element.without_eq, ih hbelow,
      without_eq_self hbefore, without_eq_self hafter]

/-- An element that is inserted stands below its parent, among the siblings that were there. -/
theorem insert?_siblings {position : Option Nat}
    (h : insert? parent position e rest = some changed) :
    ∃ before after, HasSiblings parent (before ++ after) rest ∧
      HasSiblings parent (before ++ e :: after) changed ∧
      before.length = min (position.getD (before ++ after).length) (before ++ after).length := by
  have placed (siblings : Forest) : ∃ before after, siblings = before ++ after ∧
      place position e siblings = before ++ e :: after ∧
      before.length = min (position.getD siblings.length) siblings.length :=
    ⟨_, _, (List.take_append_drop _ siblings).symm, place_eq position e siblings,
      List.length_take_of_le (Nat.min_le_right _ _)⟩
  cases parent with
  | none =>
    cases h
    obtain ⟨before, after, hsiblings, hplace, hlength⟩ := placed rest
    exact ⟨before, after, hsiblings.symm, hplace.symm, hsiblings ▸ hlength⟩
  | some id =>
    obtain ⟨p, hp, hrep⟩ := modify?_replaces h
    obtain ⟨hmem, hid⟩ := find?_some hp
    obtain ⟨before, after, hsiblings, hplace, hlength⟩ := placed p.children
    have hchanged := hrep.symm.mem_preorder (List.mem_singleton_self _)
    exact ⟨before, after, ⟨p, hmem, hid, hsiblings⟩, ⟨_, hchanged, hid, hplace⟩,
      hsiblings ▸ hlength⟩

/-- With distinct ids, taking finds whichever element of the forest has the id. -/
theorem exists_gap_of_mem (hnodup : (ids forest).Nodup) (he : e ∈ preorder forest) :
    ∃ old place rest, take? e.id forest = some (e, rest) ∧ Gap old place e none rest forest := by
  have hsome : take? e.id forest ≠ none := by
    rw [ne_eq, take?_eq_none_iff, not_not]
    exact List.mem_map_of_mem he
  obtain ⟨⟨taken, rest⟩, ht⟩ := Option.ne_none_iff_exists'.mp hsome
  obtain ⟨hid, hrep⟩ := take?_some ht
  have hmem := hrep.mem_preorder (List.mem_singleton_self taken)
  obtain rfl : taken = e := List.inj_on_of_nodup_map hnodup hmem he hid
  obtain ⟨old, place, hgap⟩ := Gap.of_replaces hrep none
  exact ⟨old, place, rest, ht, hgap⟩

/-- Where parents are right, adopting an element elsewhere changes only its own record. -/
theorem Gap.adopt_elsewhere {old : Option String} {place : Nat}
    (h : Gap old place e none rest forest) (ok : checkParents forest = .ok ())
    (parent : Option String) : e.adopt parent = { e with parentId := parent } := by
  have hchildren : adopt (some e.id) e.children = e.children := by
    have h := congrArg Element.children (h.adopt_eq ok)
    rwa [Element.adopt_eq] at h
  rw [Element.adopt_eq, hchildren]

/-- What is not in the subtree of an element is in the forest without it. -/
theorem Gap.mem_ids {old : Option String} {place : Nat} (h : Gap old place e none rest forest)
    (hm : id ∈ ids forest) (hout : id ∉ ids [e]) : id ∈ ids rest := by
  have hcount := h.count_ids id
  rw [List.count_eq_zero_of_not_mem hout, Nat.add_zero] at hcount
  rw [← List.count_pos_iff, ← hcount]
  exact List.count_pos_iff.mpr hm

end Forest

namespace ForestEdit

open Forest (ids Moved)

variable {id target : String} {parent : Option String} {index : Option Nat} {e : Element}
  {forest : Forest}

theorem move_missing (h : id ∉ ids forest) (parent : Option String) (index : Option Nat) :
    (move id parent index).on forest = (.error (.elementNotFound id), forest) := by
  cases parent with
  | none => rw [move_root_on, Forest.take?_eq_none_iff.mpr h]
  | some target => rw [move_below_on, checkTarget_on, Forest.find?_eq_none_iff.mpr h]

theorem move_into_descendant (hfind : Forest.find? id forest = some e) (h : target ∈ ids [e])
    (index : Option Nat) : (move id (some target) index).on forest =
      (.error (.moveIntoDescendant id target), forest) := by
  have hin : (e.find? target).isSome := find?_isSome_iff.mpr h
  simp only [move_below_on, checkTarget_on, hfind, if_pos hin]

theorem move_to_missing (hfind : Forest.find? id forest = some e) (hout : target ∉ ids [e])
    (h : target ∉ ids forest) (index : Option Nat) :
    (move id (some target) index).on forest = (.error (.elementNotFound target), forest) := by
  have hin : ¬ (e.find? target).isSome := fun hin => hout (find?_isSome_iff.mp hin)
  have hnone := Forest.find?_eq_none_iff.mpr h
  simp only [move_below_on, checkTarget_on, hfind, if_neg hin, hnone, Option.isNone_none, if_true]

theorem move_moved (hnodup : (ids forest).Nodup) (ok : Forest.checkParents forest = .ok ())
    (he : e ∈ Forest.preorder forest)
    (htarget : ∀ target, parent = some target → target ∈ ids forest ∧ target ∉ ids [e]) :
    ∃ changed, (move e.id parent index).on forest = (.ok (), changed) ∧
      Moved e parent index forest changed := by
  obtain ⟨old, place, rest, ht, hgap⟩ := Forest.exists_gap_of_mem hnodup he
  have hnew : e.id ∉ ids rest := fun hm => (hgap.nodup_ids hnodup).2 e.id hm (by simp)
  have hrest := hgap.without_eq hnew
  have hfind := Forest.find?_eq_of_mem he hnodup
  rw [move_on_of_take? (fun t h => ⟨hfind, (htarget t h).2, (htarget t h).1⟩) ht, insert_on]
  cases hi : Forest.insert? parent index (e.adopt parent) rest with
  | none =>
    obtain ⟨t, rfl, hm⟩ := Forest.insert?_eq_none_iff.mp hi
    exact absurd (hgap.mem_ids (htarget t rfl).1 (htarget t rfl).2) hm
  | some changed =>
    rw [hgap.adopt_elsewhere ok] at hi
    obtain ⟨position, hfilled⟩ := Forest.Gap.of_insert? hi
    refine ⟨changed, rfl, (hfilled.without_eq hnew).trans hrest.symm, ?_, ?_⟩
    · refine List.perm_iff_count.mpr fun other => ?_
      rw [hfilled.count_ids, hgap.count_ids]
      simp
    · rw [hrest]
      exact Forest.insert?_siblings hi

/-- In a forest with distinct ids and right parents, a move fails if there is no element of the id,
else if its target is the element or one of its descendants, else if there is no target, and with
these errors; the forest then stays. Otherwise the element moves: below the target, or among the
roots, it stands at the index among those that are there without it, or behind them all. All of
its subtree is as before, except that it records its new parent. -/
theorem move_outcome (forest : Forest) (hnodup : (ids forest).Nodup)
    (ok : Forest.checkParents forest = .ok ()) (id : String) (parent : Option String)
    (index : Option Nat) :
    (id ∉ ids forest →
      (move id parent index).on forest = (.error (.elementNotFound id), forest)) ∧
    ∀ e ∈ Forest.preorder forest, e.id = id →
      (∀ target, parent = some target → target ∈ ids [e] →
        (move id parent index).on forest = (.error (.moveIntoDescendant id target), forest)) ∧
      (∀ target, parent = some target → target ∉ ids [e] → target ∉ ids forest →
        (move id parent index).on forest = (.error (.elementNotFound target), forest)) ∧
      ((∀ target, parent = some target → target ∈ ids forest ∧ target ∉ ids [e]) →
        ∃ changed, (move id parent index).on forest = (.ok (), changed) ∧
          Moved e parent index forest changed) := by
  refine ⟨fun h => move_missing h parent index, ?_⟩
  rintro e he rfl
  have hfind := Forest.find?_eq_of_mem he hnodup
  refine ⟨?_, ?_, move_moved hnodup ok he⟩
  · rintro target rfl h
    exact move_into_descendant hfind h index
  · rintro target rfl hout h
    exact move_to_missing hfind hout h index

/-- A frame with a caption, the second of three things in a gallery. -/
private def captionedFrame : Element :=
  { (Element.bare "frame" .container).withChild (Element.bare "caption" .text) with
    parentId := some "gallery" }

private def galleryLayout : Forest :=
  let gallery := (Element.bare "gallery" .container).withChild (Element.bare "first" .image)
  [(gallery.withChild captionedFrame).withChild (Element.bare "last" .image),
    Element.bare "footer" .container]

theorem gallery_move_outcome :
    (ids galleryLayout).Nodup ∧ Forest.checkParents galleryLayout = .ok () ∧
    "lamp" ∉ ids galleryLayout ∧ captionedFrame ∈ Forest.preorder galleryLayout ∧
    (move "lamp" none none).on galleryLayout =
      (.error (.elementNotFound "lamp"), galleryLayout) ∧
    (move "frame" (some "caption") none).on galleryLayout =
      (.error (.moveIntoDescendant "frame" "caption"), galleryLayout) ∧
    (move "frame" (some "lamp") none).on galleryLayout =
      (.error (.elementNotFound "lamp"), galleryLayout) ∧
    ∃ changed, (move "frame" (some "gallery") (some 7)).on galleryLayout = (.ok (), changed) ∧
      ids changed = ["gallery", "first", "last", "frame", "caption", "footer"] ∧
      Moved captionedFrame (some "gallery") (some 7) galleryLayout changed := by
  have hnodup : (ids galleryLayout).Nodup := by decide
  have ok : Forest.checkParents galleryLayout = .ok () := rfl
  have hlamp : "lamp" ∉ ids galleryLayout := by decide
  have hframe : captionedFrame ∈ Forest.preorder galleryLayout :=
    .tail _ (.tail _ (.head _))
  have outcome := move_outcome galleryLayout hnodup ok
  refine ⟨hnodup, ok, hlamp, hframe, (outcome "lamp" none none).1 hlamp, ?_, ?_, ?_⟩
  · exact ((outcome "frame" (some "caption") none).2 _ hframe rfl).1 "caption" rfl (by decide)
  · exact ((outcome "frame" (some "lamp") none).2 _ hframe rfl).2.1 "lamp" rfl (by decide) hlamp
  · have moves := ((outcome "frame" (some "gallery") (some 7)).2 _ hframe rfl).2.2
    obtain ⟨changed, hmove, moved⟩ := moves fun
      | _, rfl => ⟨by decide, by decide⟩
    obtain rfl : _ = changed := congrArg Prod.snd hmove
    exact ⟨_, hmove, rfl, moved⟩

end ForestEdit

end Pagewright
