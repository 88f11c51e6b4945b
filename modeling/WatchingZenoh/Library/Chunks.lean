import Mathlib

/-! A list cut into pieces of one length, the last as long as what is left; the pieces are what the
library's `toChunks` makes of it. -/

namespace WatchingZenoh.Chunks

variable {α : Type*}

/-- Every piece but the last has `n` elements, and the last at least one. -/
def Pieces (n : ℕ) : List (List α) → Prop
  | [] => True
  | [p] => 0 < p.length ∧ p.length ≤ n
  | p :: q :: rest => p.length = n ∧ Pieces n (q :: rest)

theorem Pieces.cons {n : ℕ} {p : List α} {rest : List (List α)} (hp : p.length = n) (hn : 0 < n)
    (h : Pieces n rest) : Pieces n (p :: rest) := by
  cases rest with
  | nil => exact ⟨by omega, by omega⟩
  | cons q rest => exact ⟨hp, h⟩

theorem Pieces.tail {n : ℕ} {p : List α} {rest : List (List α)} (h : Pieces n (p :: rest)) :
    Pieces n rest := by
  cases rest with
  | nil => trivial
  | cons q rest => exact h.2

end WatchingZenoh.Chunks
