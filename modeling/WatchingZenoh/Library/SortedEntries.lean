import Mathlib

/-! Lists of entries with strictly rising keys, read as finite maps: the search for a key, and what an
entry put in, replaced or taken out at the place it answers does to the map. -/

namespace WatchingZenoh.SortedEntries

variable {K V : Type*} [LinearOrder K]

def Sorted (entries : List (K × V)) : Prop := entries.Pairwise fun a b => a.1 < b.1

/-- `binary_search_by` over rising keys: the place of the key, or the place it would have. -/
def search (key : K) (entries : List (K × V)) : Except ℕ ℕ :=
  let place := (entries.takeWhile fun e => e.1 < key).length
  if entries[place]?.any fun e => e.1 = key then .ok place else .error place

/-- The entries are those of a map, in the order of their keys. -/
structure Maps (entries : List (K × V)) (map : K → Option V) : Prop where
  sorted : Sorted entries
  mem_iff : ∀ k v, (k, v) ∈ entries ↔ map k = some v

theorem takeWhile_append_rest (key : K) (entries : List (K × V)) :
    ∃ rest, entries = (entries.takeWhile fun e => e.1 < key) ++ rest ∧
      ∀ e ∈ rest.head?, ¬ e.1 < key := by
  refine ⟨entries.dropWhile fun e => e.1 < key, List.takeWhile_append_dropWhile.symm, fun e he => ?_⟩
  have hnot := List.head?_dropWhile_not (fun e : K × V => decide (e.1 < key)) entries
  rw [Option.mem_def.mp he] at hnot
  simpa using hnot

theorem search_ok {key : K} {entries : List (K × V)} {place : ℕ} (h : search key entries = .ok place) :
    ∃ front v back, entries = front ++ (key, v) :: back ∧ front.length = place := by
  obtain ⟨rest, hsplit, -⟩ := takeWhile_append_rest key entries
  simp only [search] at h
  split_ifs at h with hany
  cases h
  obtain ⟨⟨k, v⟩, hget, hkey⟩ := (Option.any_eq_true _ _).mp hany
  rw [decide_eq_true_eq] at hkey
  subst hkey
  refine ⟨entries.takeWhile fun e => e.1 < k, v, rest.tail, ?_, rfl⟩
  have hhead : rest[0]? = some (k, v) := by
    rw [← hget]
    conv_rhs => rw [hsplit]
    rw [List.getElem?_append_right (by rw [← hsplit]), ← hsplit, Nat.sub_self]
  cases rest with
  | nil => simp at hhead
  | cons e rest =>
    rw [List.getElem?_cons_zero, Option.some.injEq] at hhead
    rw [List.tail_cons, ← hhead]
    exact hsplit

theorem search_error {key : K} {entries : List (K × V)} (hsorted : Sorted entries) {place : ℕ}
    (h : search key entries = .error place) :
    ∃ front back, entries = front ++ back ∧ front.length = place ∧ (∀ e ∈ front, e.1 < key) ∧
      ∀ e ∈ back, key < e.1 := by
  obtain ⟨rest, hsplit, hhead⟩ := takeWhile_append_rest key entries
  simp only [search] at h
  split_ifs at h with hany
  cases h
  refine ⟨_, rest, hsplit, rfl, fun e he => by simpa using List.mem_takeWhile_imp he, ?_⟩
  cases rest with
  | nil => simp
  | cons first rest =>
    have hne : first.1 ≠ key := fun heq => by
      refine hany ?_
      have hget : entries[(entries.takeWhile fun e => e.1 < key).length]? = some first := by
        conv_lhs => rw [hsplit]
        rw [List.getElem?_append_right (by rw [← hsplit]), ← hsplit, Nat.sub_self,
          List.getElem?_cons_zero]
      rw [hget]
      simpa using heq
    have hfirst : key < first.1 := lt_of_le_of_ne (not_lt.mp (hhead first (by simp))) hne.symm
    intro e he
    rcases List.mem_cons.mp he with rfl | he
    · exact hfirst
    · rw [hsplit, Sorted, List.pairwise_append] at hsorted
      exact hfirst.trans ((List.pairwise_cons.mp hsorted.2.1).1 e he)

theorem search_of_mem {key : K} {v : V} {front back : List (K × V)}
    (hsorted : Sorted (front ++ (key, v) :: back)) :
    search key (front ++ (key, v) :: back) = .ok front.length := by
  have hfront : ∀ e ∈ front, e.1 < key := fun e he =>
    (List.pairwise_append.mp hsorted).2.2 e he (key, v) (by simp)
  have htake : ((front ++ (key, v) :: back).takeWhile fun e => e.1 < key) = front := by
    rw [List.takeWhile_append_of_pos fun e he => by simpa using hfront e he,
      List.takeWhile_cons_of_neg (by simp), List.append_nil]
  simp only [search, htake]
  rw [if_pos]
  rw [List.getElem?_append_right le_rfl, Nat.sub_self]
  simp

theorem search_eq_ok_iff {key : K} {entries : List (K × V)} (hsorted : Sorted entries) {place : ℕ} :
    search key entries = .ok place ↔ ∃ v, entries[place]? = some (key, v) := by
  constructor
  · intro h
    obtain ⟨front, v, back, rfl, rfl⟩ := search_ok h
    exact ⟨v, by simp⟩
  · rintro ⟨v, hget⟩
    obtain ⟨hlt, hget⟩ := List.getElem?_eq_some_iff.mp hget
    have hsplit : entries = entries.take place ++ (key, v) :: entries.drop (place + 1) := by
      rw [← hget, List.getElem_cons_drop, List.take_append_drop]
    have hlen : (entries.take place).length = place := List.length_take_of_le hlt.le
    rw [hsplit] at hsorted ⊢
    rw [search_of_mem hsorted, hlen]

section Maps

variable {entries front back : List (K × V)} {map : K → Option V} {key : K} {v w : V}

theorem maps_nil : Maps ([] : List (K × V)) fun _ => none := ⟨.nil, by simp⟩

theorem Maps.get_of_split (h : Maps (front ++ (key, v) :: back) map) : map key = some v :=
  (h.mem_iff key v).mp (by simp)

theorem Maps.get_of_absent (h : Maps entries map) (habsent : ∀ e ∈ entries, e.1 ≠ key) :
    map key = none := by
  cases hget : map key with
  | none => rfl
  | some v => exact absurd rfl (habsent (key, v) ((h.mem_iff key v).mpr hget))

theorem Maps.insert (h : Maps (front ++ back) map) (hfront : ∀ e ∈ front, e.1 < key)
    (hback : ∀ e ∈ back, key < e.1) (v : V) :
    Maps (front ++ (key, v) :: back) (Function.update map key (some v)) := by
  have hsorted := List.pairwise_append.mp h.sorted
  refine ⟨List.pairwise_append.mpr ⟨hsorted.1, List.pairwise_cons.mpr ⟨hback, hsorted.2.1⟩,
    fun a ha b hb => ?_⟩, fun k u => ?_⟩
  · rcases List.mem_cons.mp hb with rfl | hb
    · exact hfront a ha
    · exact hsorted.2.2 a ha b hb
  · have hother : (k, u) ∈ front ++ back → k ≠ key := fun hmem => by
      rcases List.mem_append.mp hmem with hmem | hmem
      · exact (hfront _ hmem).ne
      · exact (hback _ hmem).ne'
    by_cases hk : k = key
    · subst hk
      rw [Function.update_self, Option.some.injEq]
      constructor
      · intro hmem
        simp only [List.mem_append, List.mem_cons, Prod.mk.injEq, true_and] at hmem
        rcases hmem with hmem | rfl | hmem
        · exact absurd rfl (hother (List.mem_append_left _ hmem))
        · rfl
        · exact absurd rfl (hother (List.mem_append_right _ hmem))
      · rintro rfl
        simp
    · rw [Function.update_of_ne hk, ← h.mem_iff]
      simp [hk]

theorem Maps.erase (h : Maps (front ++ (key, w) :: back) map) :
    Maps (front ++ back) (Function.update map key none) := by
  have hsorted := List.pairwise_append.mp h.sorted
  have hcons := List.pairwise_cons.mp hsorted.2.1
  refine ⟨List.pairwise_append.mpr ⟨hsorted.1, hcons.2,
    fun a ha b hb => hsorted.2.2 a ha b (List.mem_cons_of_mem _ hb)⟩, fun k u => ?_⟩
  by_cases hk : k = key
  · subst hk
    rw [Function.update_self]
    refine iff_of_false (fun hmem => ?_) (by simp)
    rcases List.mem_append.mp hmem with hmem | hmem
    · exact lt_irrefl k (hsorted.2.2 (k, u) hmem (k, w) (by simp))
    · exact lt_irrefl k (hcons.1 (k, u) hmem)
  · rw [Function.update_of_ne hk, ← h.mem_iff]
    simp [hk]

theorem Maps.replace (h : Maps (front ++ (key, w) :: back) map) (v : V) :
    Maps (front ++ (key, v) :: back) (Function.update map key (some v)) := by
  have hsorted := List.pairwise_append.mp h.sorted
  have hinsert := h.erase.insert (fun e he => hsorted.2.2 e he (key, w) (by simp))
    (List.pairwise_cons.mp hsorted.2.1).1 v
  rwa [Function.update_idem] at hinsert

end Maps

end WatchingZenoh.SortedEntries
