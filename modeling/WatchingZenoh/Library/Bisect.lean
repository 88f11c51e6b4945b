import Mathlib

/-! Bisection for the first position where a predicate fails. Asking the predicate may panic; where it
answers between the bounds and holds of a front only, the loop returns the end of that front. -/

namespace WatchingZenoh.Bisect

/-- The loop between `low` and `high`. -/
def bisect (ask : ℕ → Option Bool) (low high : ℕ) : Option ℕ :=
  if low < high then do
    let mid := low + (high - low) / 2
    if ← ask mid then bisect ask (mid + 1) high else bisect ask low mid
  else some low
termination_by high - low
decreasing_by all_goals omega

theorem bisect_eq {ask : ℕ → Option Bool} {low high k : ℕ} (hlow : low ≤ k) (hhigh : k ≤ high)
    (hask : ∀ i, low ≤ i → i < high → ask i = some (decide (i < k))) :
    bisect ask low high = some k := by
  induction hspan : high - low using Nat.strong_induction_on generalizing low high with
  | _ span ih =>
    rw [bisect]
    by_cases hlt : low < high
    · have hmid := hask (low + (high - low) / 2) (by omega) (by omega)
      rw [if_pos hlt]
      simp only [hmid, Option.bind_eq_bind, Option.bind_some, decide_eq_true_eq]
      split_ifs with hbelow
      · exact ih _ (by omega) (by omega) hhigh (fun i hi => hask i (by omega)) rfl
      · exact ih _ (by omega) hlow (by omega) (fun i hi hi' => hask i hi (by omega)) rfl
    · rw [if_neg hlt]
      congr 1
      omega

end WatchingZenoh.Bisect
