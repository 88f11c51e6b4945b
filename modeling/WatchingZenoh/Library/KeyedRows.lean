import Mathlib

/-! A bounded vector of rows, each a key and a value, with no key twice: a finite map whose rows are
taken out by moving the last one into their place. -/

namespace WatchingZenoh.KeyedRows

variable {α κ ν : Type*}

/-- The last entry takes the place of the one that is taken out. -/
def swapRemove (rows : List α) (i : ℕ) : List α :=
  (rows.getLast?.elim rows fun last => rows.set i last).dropLast

theorem perm_swapRemove {rows : List α} {i : ℕ} {a : α} (h : rows[i]? = some a) :
    rows.Perm (a :: swapRemove rows i) := by
  rcases List.eq_nil_or_concat rows with rfl | ⟨front, last, rfl⟩
  · simp at h
  · rw [List.concat_eq_append] at h ⊢
    have hi := (List.getElem?_eq_some_iff.mp h).1
    have hswap : swapRemove (front ++ [last]) i = ((front ++ [last]).set i last).dropLast := by
      simp [swapRemove]
    rw [hswap]
    rcases Nat.lt_or_ge i front.length with hlt | hge
    · rw [List.getElem?_append_left hlt] at h
      obtain ⟨-, rfl⟩ := List.getElem?_eq_some_iff.mp h
      have hfront : List.Perm front (front[i] :: front.eraseIdx i) :=
        (List.getElem_cons_eraseIdx_perm hlt).symm
      have hset := List.set_perm_cons_eraseIdx hlt last
      rw [List.set_append_left _ _ hlt, List.dropLast_concat]
      refine (List.perm_append_singleton _ _).trans ((hfront.cons _).trans ?_)
      exact (List.Perm.swap _ _ _).trans (hset.symm.cons _)
    · have hi' : i = front.length := by
        rw [List.length_append, List.length_singleton] at hi
        omega
      subst hi'
      have ha : last = a := by simpa using h
      subst ha
      simp

section Rows

variable [DecidableEq κ]

def row (rows : List (κ × ν)) (k : κ) : Option ν := (rows.find? (·.1 = k)).map Prod.snd

/-- The row of a key is set; `false` when there is no room for a new one. -/
def setRow (cap : ℕ) (rows : List (κ × ν)) (k : κ) (v : ν) : List (κ × ν) × Bool :=
  match rows.findIdx? (·.1 = k) with
  | some i => (rows.set i (k, v), true)
  | none => if rows.length < cap then (rows ++ [(k, v)], true) else (rows, false)

def dropRow (rows : List (κ × ν)) (k : κ) : List (κ × ν) :=
  (rows.findIdx? (·.1 = k)).elim rows (swapRemove rows)

def Keyed (rows : List (κ × ν)) : Prop := (rows.map Prod.fst).Nodup

omit [DecidableEq κ] in
theorem keyed_nil : Keyed ([] : List (κ × ν)) := List.nodup_nil

omit [DecidableEq κ] in
theorem Keyed.perm {rows rows' : List (κ × ν)} (h : Keyed rows) (hperm : rows.Perm rows') :
    Keyed rows' :=
  (hperm.map _).nodup_iff.mp h

variable {rows : List (κ × ν)} {k k' : κ} {v : ν} {cap : ℕ}

theorem row_eq_none_iff : row rows k = none ↔ ∀ v, (k, v) ∉ rows := by
  rw [row, Option.map_eq_none_iff, List.find?_eq_none]
  constructor
  · intro h v hv
    exact h (k, v) hv (by simp)
  · rintro h ⟨k', v⟩ hmem heq
    simp only [decide_eq_true_eq] at heq
    subst heq
    exact h v hmem

theorem row_eq_some_iff (h : Keyed rows) : row rows k = some v ↔ (k, v) ∈ rows := by
  constructor
  · intro hrow
    rw [row, Option.map_eq_some_iff] at hrow
    obtain ⟨⟨k', v'⟩, hfind, rfl⟩ := hrow
    have hk : k' = k := by simpa using List.find?_some hfind
    subst hk
    exact List.mem_of_find?_eq_some hfind
  · intro hmem
    rcases hrow : row rows k with _ | v'
    · exact absurd hmem (row_eq_none_iff.mp hrow v)
    · have hmem' : (k, v') ∈ rows := by
        rw [row, Option.map_eq_some_iff] at hrow
        obtain ⟨⟨k', v''⟩, hfind, rfl⟩ := hrow
        have hk : k' = k := by simpa using List.find?_some hfind
        subst hk
        exact List.mem_of_find?_eq_some hfind
      have hinj := List.inj_on_of_nodup_map h hmem' hmem rfl
      rw [(Prod.mk.inj hinj).2]

theorem row_ne_none_iff : row rows k ≠ none ↔ k ∈ rows.map Prod.fst := by
  rw [ne_eq, row_eq_none_iff, not_forall]
  simp

theorem row_congr {rows' : List (κ × ν)} (h : Keyed rows) (h' : Keyed rows')
    (hmem : ∀ v, (k, v) ∈ rows ↔ (k, v) ∈ rows') : row rows k = row rows' k := by
  refine Option.ext fun v => ?_
  rw [row_eq_some_iff h, row_eq_some_iff h', hmem]

theorem row_perm {rows' : List (κ × ν)} (h : Keyed rows) (hperm : rows.Perm rows') :
    row rows k = row rows' k :=
  row_congr h (h.perm hperm) fun _ => hperm.mem_iff

theorem row_cons (k' : κ) (v : ν) (rows : List (κ × ν)) :
    row ((k', v) :: rows) k = if k' = k then some v else row rows k := by
  rw [row, List.find?_cons]
  by_cases h : k' = k <;> simp [h, row]

theorem findIdx_cases (rows : List (κ × ν)) (k : κ) :
    (rows.findIdx? (·.1 = k) = none ∧ row rows k = none) ∨
      ∃ i v, rows.findIdx? (·.1 = k) = some i ∧ rows[i]? = some (k, v) ∧ row rows k = some v := by
  rcases hidx : rows.findIdx? (·.1 = k) with _ | i
  · refine .inl ⟨hidx, ?_⟩
    rw [List.findIdx?_eq_none_iff] at hidx
    rw [row, Option.map_eq_none_iff, List.find?_eq_none]
    exact fun r hr => by simpa using hidx r hr
  · refine .inr ⟨i, ?_⟩
    have hfound := hidx
    rw [List.findIdx?_eq_some_iff_getElem] at hidx
    obtain ⟨hi, hk, hbefore⟩ := hidx
    have hk' : (rows[i]).1 = k := by simpa using hk
    refine ⟨rows[i].2, hfound, ?_, ?_⟩
    · rw [List.getElem?_eq_getElem hi, ← hk']
    · rw [row, Option.map_eq_some_iff]
      refine ⟨rows[i], ?_, rfl⟩
      rw [List.find?_eq_some_iff_getElem]
      exact ⟨hk, i, hi, rfl, fun j hj => by simpa using hbefore j hj⟩

/-- What a row written to leaves of the map. -/
structure Wrote (cap : ℕ) (rows : List (κ × ν)) (k : κ) (v : ν) (rows' : List (κ × ν)) : Prop where
  keyed : Keyed rows'
  length_le : rows'.length ≤ cap
  row_self : row rows' k = some v
  row_ne : ∀ k', k' ≠ k → row rows' k' = row rows k'

theorem wrote_setRow (h : Keyed rows) (hcap : rows.length ≤ cap)
    (hroom : row rows k ≠ none ∨ rows.length < cap) (v : ν) :
    Wrote cap rows k v (setRow cap rows k v).1 := by
  rcases findIdx_cases rows k with ⟨hidx, hnone⟩ | ⟨i, old, hidx, hget, -⟩
  · have hlt := hroom.resolve_left (not_not.mpr hnone)
    have hset : (setRow cap rows k v).1 = rows ++ [(k, v)] := by simp [setRow, hidx, hlt]
    have hperm : (rows ++ [(k, v)]).Perm ((k, v) :: rows) := List.perm_append_singleton _ _
    have hkeyed : Keyed ((k, v) :: rows) := by
      rw [Keyed, List.map_cons, List.nodup_cons]
      refine ⟨fun hkey => ?_, h⟩
      obtain ⟨⟨_, v'⟩, hmem, rfl⟩ := List.mem_map.mp hkey
      exact row_eq_none_iff.mp hnone v' hmem
    rw [hset]
    refine ⟨hkeyed.perm hperm.symm, ?_, ?_, fun k' hk => ?_⟩
    · rw [List.length_append, List.length_singleton]
      omega
    · rw [row_perm (hkeyed.perm hperm.symm) hperm, row_cons, if_pos rfl]
    · rw [row_perm (hkeyed.perm hperm.symm) hperm, row_cons, if_neg (Ne.symm hk)]
  · have hset : (setRow cap rows k v).1 = rows.set i (k, v) := by simp [setRow, hidx]
    obtain ⟨hi, hold⟩ := List.getElem?_eq_some_iff.mp hget
    have hperm : rows.Perm ((k, old) :: rows.eraseIdx i) := by
      rw [← hold]
      exact (List.getElem_cons_eraseIdx_perm hi).symm
    have hperm' : (rows.set i (k, v)).Perm ((k, v) :: rows.eraseIdx i) :=
      List.set_perm_cons_eraseIdx hi _
    have hkeyed : Keyed ((k, v) :: rows.eraseIdx i) := by simpa [Keyed] using h.perm hperm
    rw [hset]
    refine ⟨hkeyed.perm hperm'.symm, by simpa using hcap, ?_, fun k' hk => ?_⟩
    · rw [row_perm (hkeyed.perm hperm'.symm) hperm', row_cons, if_pos rfl]
    · rw [row_perm (hkeyed.perm hperm'.symm) hperm', row_perm h hperm, row_cons, row_cons,
        if_neg (Ne.symm hk), if_neg (Ne.symm hk)]

/-- What taking out a row leaves of the map. -/
structure Dropped (rows : List (κ × ν)) (k : κ) (rows' : List (κ × ν)) : Prop where
  keyed : Keyed rows'
  length_le : rows'.length ≤ rows.length
  row_self : row rows' k = none
  row_ne : ∀ k', k' ≠ k → row rows' k' = row rows k'

theorem dropped_swapRemove (h : Keyed rows) {i : ℕ} (hget : rows[i]? = some (k, v)) :
    Dropped rows k (swapRemove rows i) := by
  have hperm := perm_swapRemove hget
  have hkeyed := h.perm hperm
  rw [Keyed, List.map_cons, List.nodup_cons] at hkeyed
  refine ⟨hkeyed.2, ?_, ?_, fun k' hk => ?_⟩
  · rw [hperm.length_eq, List.length_cons]
    omega
  · rw [row_eq_none_iff]
    exact fun v' hmem => hkeyed.1 (List.mem_map.mpr ⟨(k, v'), hmem, rfl⟩)
  · rw [row_perm h hperm, row_cons, if_neg (Ne.symm hk)]

theorem dropped_dropRow (h : Keyed rows) (k : κ) : Dropped rows k (dropRow rows k) := by
  rcases findIdx_cases rows k with ⟨hidx, hnone⟩ | ⟨i, old, hidx, hget, -⟩
  · rw [dropRow, hidx]
    exact ⟨h, le_rfl, hnone, fun _ _ => rfl⟩
  · rw [dropRow, hidx]
    exact dropped_swapRemove h hget

theorem length_lt_of_missing {μ : Type*} {table : List (κ × μ)} (h : Keyed rows)
    (hcap : table.length ≤ cap) (hsub : ∀ k, row rows k ≠ none → row table k ≠ none)
    (hk : row rows k = none) (hk' : row table k ≠ none) : rows.length < cap := by
  have hkeys : (k :: rows.map Prod.fst).Subperm (table.map Prod.fst) := by
    refine List.subperm_of_subset (List.nodup_cons.mpr ⟨fun hin => row_ne_none_iff.mpr hin hk, h⟩) ?_
    intro k' hin
    rcases List.mem_cons.mp hin with rfl | hin
    · exact row_ne_none_iff.mp hk'
    · exact row_ne_none_iff.mp (hsub k' (row_ne_none_iff.mpr hin))
  have hle := hkeys.length_le
  rw [List.length_cons, List.length_map, List.length_map] at hle
  omega

end Rows

end WatchingZenoh.KeyedRows
