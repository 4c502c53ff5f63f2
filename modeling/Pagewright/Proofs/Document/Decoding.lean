import Pagewright.Document.Element
import Pagewright.Proofs.Dict
import Pagewright.Proofs.Json.Leaves
import Pagewright.Proofs.Traversal

/-! Decoders that restore what has been written, one for each form of a document. -/

namespace Pagewright

namespace Decoder

variable {α : Type} {decode : Decoder α} {toDocument : α → Json}

/-- What is written for a value is decoded as this value within any limit that it keeps. -/
def Restores (decode : Decoder α) (toDocument : α → Json) (x : α) : Prop :=
  ∀ limit, (toDocument x).depth ≤ limit → decode limit (toDocument x) = some x

theorem list_restores {l : List α} (h : ∀ x ∈ l, Restores decode toDocument x) :
    Restores (list decode) (fun l => .array (l.map toDocument)) l := by
  intro limit hdepth
  obtain ⟨inner, rfl, hitems⟩ := Json.depth_array_le.mp hdepth
  have read : (l.map toDocument).mapM (decode inner) = some (l.map id) :=
    mapM_map_eq_some fun x hx => h x hx inner (hitems _ (List.mem_map_of_mem hx))
  rw [list, read, List.map_id]

theorem exists_of_mem_list {limit : Nat} {j : Json} {l : List α}
    (h : list decode limit j = some l) : ∃ items inner, limit = inner + 1 ∧ j = .array items ∧
      ∀ x ∈ l, ∃ item ∈ items, decode inner item = some x := by
  unfold list at h
  split at h
  · next inner items => exact ⟨items, inner, rfl, rfl, exists_of_mem_mapM h⟩
  · cases h

theorem dict_restores {d : Dict α} (h : ∀ e ∈ d.entries, Restores decode toDocument e.2) :
    Restores (dict decode) (fun d => .object (d.entries.map fun (key, x) => (key, toDocument x)))
      d := by
  intro limit hdepth
  obtain ⟨inner, rfl, hmembers⟩ := Json.depth_object_le.mp hdepth
  have read : (d.entries.map fun (key, x) => (key, toDocument x)).mapM
      (fun m => (decode inner m.2).map (m.1, ·)) = some (d.entries.map id) := by
    refine mapM_map_eq_some fun (key, x) hx => ?_
    dsimp only
    rw [h (key, x) hx inner (hmembers _ (List.mem_map_of_mem hx))]
    rfl
  rw [dict, read, List.map_id, Option.map_some, Dict.ofList_entries]

theorem exists_of_mem_dict {limit : Nat} {j : Json} {d : Dict α}
    (h : dict decode limit j = some d) : ∃ members inner, limit = inner + 1 ∧
      j = .object members ∧
        ∀ e ∈ d.entries, ∃ member ∈ members, decode inner member.2 = some e.2 := by
  unfold dict at h
  split at h
  · next inner members =>
    refine ⟨members, inner, rfl, rfl, fun e he => ?_⟩
    obtain ⟨entries, hentries, rfl⟩ := Option.map_eq_some_iff.mp h
    obtain ⟨member, hm, read⟩ := exists_of_mem_mapM hentries e (Dict.mem_of_mem_ofList he)
    obtain ⟨x, hx, rfl⟩ := Option.map_eq_some_iff.mp read
    exact ⟨member, hm, hx⟩
  · cases h

/-- Scalars that are written are decoded, and none is left out. -/
theorem scalars_restores (d : Dict Scalar) : Restores scalars scalarsDocument d := by
  intro limit hdepth
  obtain ⟨inner, rfl, _⟩ := Json.depth_object_le.mp hdepth
  have read : (d.entries.map fun m => (m.1, m.2.toDocument)).mapM
      (fun m => (nullable scalar inner m.2).map (m.1, ·)) =
        some (d.entries.map fun m => (m.1, some m.2)) := by
    refine mapM_map_eq_some fun m _ => ?_
    obtain ⟨key, s⟩ := m
    cases s <;> rfl
  have keys : ((d.entries.map fun m => (m.1, some m.2)).map Prod.fst).Nodup := by
    rw [List.map_map]
    exact d.nodup
  change (Option.map Dict.ofList (List.mapM _ (d.entries.map fun m => (m.1, m.2.toDocument)))).map
    _ = _
  rw [read, Option.map_some, Option.map_some]
  refine congrArg some (Dict.eq_of_entries ?_)
  change List.filterMap _ (Dict.ofList _).entries = _
  rw [Dict.entries_ofList keys, List.filterMap_map]
  exact List.filterMap_some

end Decoder

end Pagewright
