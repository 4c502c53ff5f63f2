/-! Lists that are mapped by a function that may fail, item by item. -/

namespace Pagewright

variable {α β γ : Type}

theorem mapM_map_eq_some {f : α → β} {g : β → Option γ} {r : α → γ} {l : List α}
    (h : ∀ x ∈ l, g (f x) = some (r x)) : (l.map f).mapM g = some (l.map r) := by
  induction l with
  | nil => rfl
  | cons x rest ih =>
    obtain ⟨hx, hrest⟩ := List.forall_mem_cons.mp h
    rw [List.map_cons, List.mapM_cons, hx, ih hrest]
    rfl

theorem exists_of_mapM_cons {g : α → Option β} {x : α} {rest : List α} {found : List β}
    (h : (x :: rest).mapM g = some found) :
    ∃ y others, g x = some y ∧ rest.mapM g = some others ∧ found = y :: others := by
  rw [List.mapM_cons] at h
  obtain ⟨y, hy, h⟩ := Option.bind_eq_some_iff.mp h
  obtain ⟨others, hothers, h⟩ := Option.bind_eq_some_iff.mp h
  cases h
  exact ⟨y, others, hy, hothers, rfl⟩

theorem exists_of_mem_mapM {g : α → Option β} {l : List α} {found : List β}
    (h : l.mapM g = some found) : ∀ y ∈ found, ∃ x ∈ l, g x = some y := by
  induction l generalizing found with
  | nil =>
    cases h
    nofun
  | cons x rest ih =>
    obtain ⟨first, others, hfirst, hothers, rfl⟩ := exists_of_mapM_cons h
    intro y hy
    rcases List.mem_cons.mp hy with rfl | hy
    · exact ⟨x, List.mem_cons_self, hfirst⟩
    · obtain ⟨z, hz, hy⟩ := ih hothers y hy
      exact ⟨z, List.mem_cons_of_mem x hz, hy⟩

/-- A function that can be undone on what it gives is undone item by item. -/
theorem eq_map_of_mapM {g : α → Option β} {r : β → α} {l : List α} {found : List β}
    (h : l.mapM g = some found) (back : ∀ x, ∀ y ∈ found, g x = some y → x = r y) :
    l = found.map r := by
  induction l generalizing found with
  | nil =>
    cases h
    rfl
  | cons x rest ih =>
    obtain ⟨first, others, hfirst, hothers, rfl⟩ := exists_of_mapM_cons h
    have hrest := ih hothers fun x y hy => back x y (List.mem_cons_of_mem first hy)
    rw [List.map_cons, ← back x first List.mem_cons_self hfirst, ← hrest]

end Pagewright
