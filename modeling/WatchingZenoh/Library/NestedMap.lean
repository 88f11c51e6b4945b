import Mathlib

/-! Maps of maps, read cell by cell. `gather` sorts a list into cells and accumulates what falls into
each; a nested map without empty inner maps is determined by its cells. -/

namespace WatchingZenoh.NestedMap

open Std (ExtTreeMap)

variable {ι κ α ε : Type} [Ord ι] [Ord κ] [Std.TransOrd ι] [Std.TransOrd κ]
  [Std.LawfulEqOrd ι] [Std.LawfulEqOrd κ]

def cell (m : ExtTreeMap ι (ExtTreeMap κ α)) (i : ι) (j : κ) : Option α := m[i]?.bind (·[j]?)

def Pruned (m : ExtTreeMap ι (ExtTreeMap κ α)) : Prop :=
  ∀ (i : ι) (inner : ExtTreeMap κ α), m[i]? = some inner → inner ≠ ∅

/-- The entry of a cell, made with a default where there is none, is updated. -/
def upsert (m : ExtTreeMap ι (ExtTreeMap κ α)) (i : ι) (j : κ) (default : α) (f : α → α) :
    ExtTreeMap ι (ExtTreeMap κ α) :=
  m.alter i fun inner => some ((inner.getD ∅).alter j fun a => some (f (a.getD default)))

/-- The entry of a cell is changed or dropped, and its inner map with it when that leaves it empty. -/
def alterCell (m : ExtTreeMap ι (ExtTreeMap κ α)) (i : ι) (j : κ) (f : Option α → Option α) :
    ExtTreeMap ι (ExtTreeMap κ α) :=
  m.alter i fun inner =>
    let inner := (inner.getD ∅).alter j f
    if inner.isEmpty then none else some inner

/-- Each item of a list is added to the accumulator of the cell it belongs to. -/
def gather (place : ε → ι × κ) (default : α) (add : ε → α → α) (items : List ε) :
    ExtTreeMap ι (ExtTreeMap κ α) :=
  items.foldl (fun m e => upsert m (place e).1 (place e).2 default (add e)) ∅

omit [Std.LawfulEqOrd κ] in
theorem getElem?_getD_empty (inner : Option (ExtTreeMap κ α)) (j : κ) :
    (inner.getD ∅)[j]? = inner.bind (·[j]?) := by
  cases inner <;> simp

theorem exists_getElem?_of_ne_empty {inner : ExtTreeMap κ α} (h : inner ≠ ∅) :
    ∃ (j : κ) (a : α), inner[j]? = some a := by
  by_contra hnone
  push Not at hnone
  refine h (ExtTreeMap.ext_getElem? fun j => ?_)
  rcases hj : inner[j]? with _ | a
  · simp
  · exact absurd hj (hnone j a)

theorem ext_cell {m m' : ExtTreeMap ι (ExtTreeMap κ α)} (hm : Pruned m) (hm' : Pruned m')
    (h : ∀ i j, cell m i j = cell m' i j) : m = m' := by
  have hsome : ∀ {m m' : ExtTreeMap ι (ExtTreeMap κ α)}, Pruned m →
      (∀ i j, cell m i j = cell m' i j) → ∀ (i : ι) (inner : ExtTreeMap κ α),
        m[i]? = some inner → m'[i]? = some inner := by
    intro m m' hm h i inner hi
    obtain ⟨j, a, hj⟩ := exists_getElem?_of_ne_empty (hm i inner hi)
    have hcell := h i j
    rw [cell, hi, Option.bind_some, hj, cell] at hcell
    obtain ⟨inner', hi', -⟩ := Option.bind_eq_some_iff.mp hcell.symm
    rw [hi', Option.some.injEq]
    refine ExtTreeMap.ext_getElem? fun j => ?_
    simpa [cell, hi, hi'] using (h i j).symm
  refine ExtTreeMap.ext_getElem? fun i => Option.ext fun inner => ?_
  exact ⟨hsome hm h i inner, hsome hm' (fun i j => (h i j).symm) i inner⟩

omit [Std.LawfulEqOrd ι] [Std.LawfulEqOrd κ] in
@[simp] theorem cell_empty (i : ι) (j : κ) :
    cell (∅ : ExtTreeMap ι (ExtTreeMap κ α)) i j = none := by
  simp [cell]

omit [Std.TransOrd κ] [Std.LawfulEqOrd ι] [Std.LawfulEqOrd κ] in
theorem pruned_empty : Pruned (∅ : ExtTreeMap ι (ExtTreeMap κ α)) := by
  intro i inner h
  simp at h

section Alter

variable [DecidableEq ι] [DecidableEq κ] (m : ExtTreeMap ι (ExtTreeMap κ α)) (i i' : ι) (j j' : κ)

theorem cell_alterCell (f : Option α → Option α) :
    cell (alterCell m i j f) i' j' =
      if (i, j) = (i', j') then f (cell m i j) else cell m i' j' := by
  by_cases hi : i = i'
  · subst hi
    simp only [cell, alterCell, ExtTreeMap.getElem?_alter_self, Prod.mk.injEq, true_and]
    set inner := (m[i]?.getD ∅).alter j f with hinner
    have hread : inner[j']? = if j = j' then f (m[i]?.bind (·[j]?)) else m[i]?.bind (·[j']?) := by
      rw [hinner, ExtTreeMap.getElem?_alter]
      simp only [Std.compare_eq_iff_eq, getElem?_getD_empty]
    rw [← hread]
    split_ifs with hempty
    · rw [ExtTreeMap.isEmpty_iff] at hempty
      simp [hempty]
    · rfl
  · simp [cell, alterCell, ExtTreeMap.getElem?_alter, hi]

omit [Std.LawfulEqOrd κ] [DecidableEq κ] in
theorem pruned_alterCell {m : ExtTreeMap ι (ExtTreeMap κ α)} (hm : Pruned m)
    (f : Option α → Option α) : Pruned (alterCell m i j f) := by
  intro i' inner h
  by_cases hi : i = i'
  · subst hi
    simp only [alterCell, ExtTreeMap.getElem?_alter_self] at h
    split_ifs at h with hempty
    rw [Option.some.injEq] at h
    rw [ExtTreeMap.isEmpty_iff] at hempty
    exact h ▸ hempty
  · simp only [alterCell, ExtTreeMap.getElem?_alter, Std.compare_eq_iff_eq, hi, if_false] at h
    exact hm i' inner h

omit [Std.LawfulEqOrd ι] [Std.LawfulEqOrd κ] [DecidableEq ι] [DecidableEq κ] in
theorem upsert_eq_alterCell (default : α) (f : α → α) :
    upsert m i j default f = alterCell m i j fun a => some (f (a.getD default)) := by
  unfold upsert alterCell
  congr 1
  funext inner
  have hne : ¬ (((inner.getD ∅).alter j fun a => some (f (a.getD default))).isEmpty = true) := by
    rw [ExtTreeMap.isEmpty_iff]
    intro hempty
    have hread : ((inner.getD ∅).alter j fun a => some (f (a.getD default)))[j]? =
        some (f ((inner.getD ∅)[j]?.getD default)) := ExtTreeMap.getElem?_alter_self
    simp [hempty] at hread
  rw [if_neg hne]

end Alter

section Gather

variable [DecidableEq ι] [DecidableEq κ] (place : ε → ι × κ) (default : α) (add : ε → α → α)

theorem cell_upsert (m : ExtTreeMap ι (ExtTreeMap κ α)) (p p' : ι × κ) (f : α → α) :
    cell (upsert m p.1 p.2 default f) p'.1 p'.2 =
      if p = p' then some (f ((cell m p.1 p.2).getD default)) else cell m p'.1 p'.2 := by
  rw [upsert_eq_alterCell, cell_alterCell]

omit [Std.LawfulEqOrd ι] [Std.LawfulEqOrd κ] [DecidableEq ι] [DecidableEq κ] in
theorem gather_append (items rest : List ε) :
    gather place default add (items ++ rest) =
      rest.foldl (fun m e => upsert m (place e).1 (place e).2 default (add e))
        (gather place default add items) :=
  List.foldl_append

omit [Std.LawfulEqOrd κ] [DecidableEq κ] in
theorem pruned_gather (items : List ε) : Pruned (gather place default add items) := by
  induction items using List.reverseRecOn with
  | nil => exact pruned_empty
  | append_singleton items e ih =>
    rw [gather_append, List.foldl_cons, List.foldl_nil, upsert_eq_alterCell]
    exact pruned_alterCell _ _ ih _

theorem cell_gather (items : List ε) (p : ι × κ) :
    cell (gather place default add items) p.1 p.2 =
      if items.filter (place · = p) = [] then none
      else some ((items.filter (place · = p)).foldl (fun a e => add e a) default) := by
  induction items using List.reverseRecOn with
  | nil => simp [gather]
  | append_singleton items e ih =>
    rw [gather_append, List.foldl_cons, List.foldl_nil, cell_upsert, List.filter_append]
    by_cases hp : place e = p
    · subst hp
      rw [if_pos rfl, ih]
      by_cases hnone : items.filter (place · = place e) = []
      · simp [hnone]
      · simp [hnone, List.foldl_append]
    · simpa [hp] using ih

end Gather

end WatchingZenoh.NestedMap
