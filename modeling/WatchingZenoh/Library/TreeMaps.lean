import Mathlib

/-! Finite maps as the lists of their entries, up to order. Inserting and erasing change the list by the
entry of one key, so that what is counted over the entries of a map moves by that entry alone. -/

namespace WatchingZenoh.TreeMaps

open Std (ExtTreeMap)

variable {κ α : Type} [Ord κ] [Std.TransOrd κ] [Std.LawfulEqOrd κ]

omit [Std.LawfulEqOrd κ] in
theorem nodup_toList (m : ExtTreeMap κ α) : m.toList.Nodup := by
  refine ExtTreeMap.distinct_keys_toList.imp ?_
  rintro a b hab rfl
  exact hab Std.ReflCmp.compare_self

theorem toList_perm_of_mem_iff {m : ExtTreeMap κ α} {entries : List (κ × α)}
    (hnodup : entries.Nodup) (h : ∀ k a, m[k]? = some a ↔ (k, a) ∈ entries) :
    m.toList.Perm entries := by
  rw [List.perm_ext_iff_of_nodup (nodup_toList m) hnodup]
  rintro ⟨k, a⟩
  rw [ExtTreeMap.mem_toList_iff_getElem?_eq_some, h]

theorem getElem?_erase_eq [DecidableEq κ] (m : ExtTreeMap κ α) (k k' : κ) :
    (m.erase k)[k']? = if k = k' then none else m[k']? := by
  simp [ExtTreeMap.getElem?_erase]

variable [DecidableEq κ]

theorem cons_erase_nodup (m : ExtTreeMap κ α) (k : κ) (a : α) :
    ((k, a) :: (m.erase k).toList).Nodup := by
  refine List.nodup_cons.mpr ⟨?_, nodup_toList _⟩
  rw [ExtTreeMap.mem_toList_iff_getElem?_eq_some, getElem?_erase_eq, if_pos rfl]
  simp

theorem toList_perm_erase (m : ExtTreeMap κ α) (k : κ) :
    m.toList.Perm ((m[k]?.toList.map fun a => (k, a)) ++ (m.erase k).toList) := by
  rcases hk : m[k]? with _ | a
  · have herase : m.erase k = m := by
      refine ExtTreeMap.ext_getElem? fun k' => ?_
      rw [getElem?_erase_eq]
      split_ifs with h
      · rw [← h, hk]
      · rfl
    simp [herase]
  · refine toList_perm_of_mem_iff (cons_erase_nodup m k a) fun k' a' => ?_
    rw [Option.toList_some, List.map_singleton, List.singleton_append, List.mem_cons,
      ExtTreeMap.mem_toList_iff_getElem?_eq_some, getElem?_erase_eq]
    by_cases h : k = k'
    · subst h
      simp [hk, eq_comm]
    · simp [h, Ne.symm h]

theorem toList_insert_perm (m : ExtTreeMap κ α) (k : κ) (a : α) :
    (m.insert k a).toList.Perm ((k, a) :: (m.erase k).toList) := by
  refine toList_perm_of_mem_iff (cons_erase_nodup m k a) fun k' a' => ?_
  rw [List.mem_cons, ExtTreeMap.mem_toList_iff_getElem?_eq_some, getElem?_erase_eq]
  by_cases h : k = k'
  · subst h
    simp [eq_comm]
  · simp [ExtTreeMap.getElem?_insert, h, Ne.symm h]

theorem exists_rest_insert {ε : Type} (m : ExtTreeMap κ α) (k : κ) (a : α) (event : κ × α → ε) :
    ∃ rest : List ε,
      (m.toList.map event).Perm ((m[k]?.toList.map fun old => event (k, old)) ++ rest) ∧
        ((m.insert k a).toList.map event).Perm (event (k, a) :: rest) := by
  refine ⟨(m.erase k).toList.map event, ?_, (toList_insert_perm m k a).map event⟩
  refine ((toList_perm_erase m k).map event).trans (List.Perm.of_eq ?_)
  rw [List.map_append, List.map_map, Function.comp_def]

end WatchingZenoh.TreeMaps
