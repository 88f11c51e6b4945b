import Mathlib

/-! A ring of cells read as a queue: from a head on, one cell behind another, with the last cell
followed by the first. -/

namespace WatchingZenoh.Ring

variable {α : Type*} {n : ℕ}

/-- The cells read from the head on hold the queue. -/
structure Reads (cells : Vector α n) (head : ℕ) (queue : List α) : Prop where
  inside : head < n
  room : queue.length ≤ n
  reads : ∀ i < queue.length, cells[(head + i) % n]? = queue[i]?

variable {cells : Vector α n} {head : ℕ} {queue : List α} {x : α}

theorem slot_ne {i j : ℕ} (hi : i < n) (hj : j < n) (hne : i ≠ j) :
    (head + i) % n ≠ (head + j) % n := fun heq => by
  have hmod : i % n = j % n := Nat.ModEq.add_left_cancel' head heq
  rw [Nat.mod_eq_of_lt hi, Nat.mod_eq_of_lt hj] at hmod
  exact hne hmod

theorem reads_empty (hn : 0 < n) : Reads cells 0 [] := ⟨hn, Nat.zero_le _, by simp⟩

theorem Reads.get (h : Reads cells head queue) {i : ℕ} (hi : queue[i]? = some x) :
    cells[(head + i) % n]? = some x := by
  have hlt : i < queue.length := (List.getElem?_eq_some_iff.mp hi).1
  rw [h.reads i hlt, hi]

theorem Reads.first (h : Reads cells head (x :: queue)) : cells[head]? = some x := by
  have hfirst : cells[(head + 0) % n]? = some x := h.get rfl
  rwa [Nat.add_zero, Nat.mod_eq_of_lt h.inside] at hfirst

theorem Reads.set (h : Reads cells head queue) {i : ℕ} (hi : i < queue.length) (y : α) :
    Reads (cells.setIfInBounds ((head + i) % n) y) head (queue.set i y) := by
  have hroom := h.room
  refine ⟨h.inside, by simpa using h.room, fun j hj => ?_⟩
  rw [List.length_set] at hj
  rw [Vector.getElem?_setIfInBounds, List.getElem?_set]
  have hmod : (head + i) % n < n := Nat.mod_lt _ (by omega)
  by_cases hij : i = j
  · subst hij
    rw [if_pos rfl, if_pos rfl, if_pos hmod, if_pos hi]
  · rw [if_neg (slot_ne (by omega) (by omega) hij), if_neg hij, h.reads j hj]

theorem Reads.push (h : Reads cells head queue) (hroom : queue.length < n) (y : α) :
    Reads (cells.setIfInBounds ((head + queue.length) % n) y) head (queue ++ [y]) := by
  refine ⟨h.inside, by simpa using hroom, fun j hj => ?_⟩
  rw [List.length_append, List.length_singleton] at hj
  rw [Vector.getElem?_setIfInBounds]
  have hmod : (head + queue.length) % n < n := Nat.mod_lt _ (by omega)
  by_cases hlast : queue.length = j
  · subst hlast
    rw [if_pos rfl, if_pos hmod]
    simp
  · rw [if_neg (slot_ne hroom (by omega) hlast), h.reads j (by omega),
      List.getElem?_append_left (by omega)]

theorem Reads.pop (h : Reads cells head (x :: queue)) (y : α) :
    Reads (cells.setIfInBounds head y) ((head + 1) % n) queue := by
  have hin := h.inside
  have hroom := h.room
  rw [List.length_cons] at hroom
  refine ⟨Nat.mod_lt _ (by omega), by omega, fun j hj => ?_⟩
  have hslot : ((head + 1) % n + j) % n = (head + (j + 1)) % n := by
    rw [Nat.mod_add_mod]
    congr 1
    omega
  have hne : head ≠ (head + (j + 1)) % n := by
    have hslots : (head + 0) % n ≠ (head + (j + 1)) % n :=
      slot_ne (by omega) (by omega) (by omega)
    rwa [Nat.add_zero, Nat.mod_eq_of_lt hin] at hslots
  rw [hslot, Vector.getElem?_setIfInBounds, if_neg hne, h.reads (j + 1) (by simpa using hj)]
  simp

theorem Reads.rest (h : Reads cells head (x :: queue)) : Reads cells ((head + 1) % n) queue := by
  have hsame : cells.setIfInBounds head x = cells := by
    ext i hi
    rw [Vector.getElem_setIfInBounds]
    split_ifs with heq
    · subst heq
      have hfirst := h.first
      rw [Vector.getElem?_eq_getElem hi, Option.some.injEq] at hfirst
      exact hfirst.symm
    · rfl
  have hpop := h.pop x
  rwa [hsame] at hpop

theorem Reads.drop (h : Reads cells head (queue ++ [x])) (y : α) :
    Reads (cells.setIfInBounds ((head + queue.length) % n) y) head queue := by
  have hroom := h.room
  rw [List.length_append, List.length_singleton] at hroom
  refine ⟨h.inside, by omega, fun j hj => ?_⟩
  rw [Vector.getElem?_setIfInBounds, if_neg (slot_ne (by omega) (by omega) (by omega)),
    h.reads j (by simp; omega), List.getElem?_append_left hj]

/-- Two stretches that lie behind one another on the unrolled line, within one turn of the ring, do
not meet on the ring. -/
theorem apart_of_unrolled {cap x y a b : ℕ} (hxy : x + a ≤ y) (hyx : y + b ≤ x + cap) (hb : 0 < b) :
    x % cap + a ≤ y % cap ∨ y % cap + b ≤ x % cap := by
  have hcap : 0 < cap := by omega
  have hlt := Nat.mod_lt x hcap
  have hmod : y % cap = (x % cap + (y - x)) % cap := by
    rw [Nat.mod_add_mod]
    congr 1
    omega
  rw [hmod]
  by_cases hturn : x % cap + (y - x) < cap
  · rw [Nat.mod_eq_of_lt hturn]
    omega
  · have hback : (x % cap + (y - x)) % cap = x % cap + (y - x) - cap := by
      rw [Nat.mod_eq_sub_mod (Nat.le_of_not_lt hturn), Nat.mod_eq_of_lt]
      omega
    rw [hback]
    omega

end WatchingZenoh.Ring
