import Mathlib

/-! Queues served in strict priority: a list of keys says which queue comes before which, and serving
takes from the first queue that is not empty. -/

namespace WatchingZenoh.StrictPriority

variable {κ α : Type*} [DecidableEq κ]

def waiting (order : List κ) (queues : κ → List α) : List α := order.flatMap queues

/-- The queues after the first `n` that wait are served. -/
def serve : List κ → ℕ → (κ → List α) → κ → List α
  | [], _, queues => queues
  | key :: order, n, queues =>
    serve order (n - (queues key).length) (Function.update queues key ((queues key).drop n))

omit [DecidableEq κ] in
@[simp] theorem waiting_nil (queues : κ → List α) : waiting [] queues = [] := rfl

omit [DecidableEq κ] in
@[simp] theorem waiting_cons (key : κ) (order : List κ) (queues : κ → List α) :
    waiting (key :: order) queues = queues key ++ waiting order queues := rfl

omit [DecidableEq κ] in
theorem waiting_append (before behind : List κ) (queues : κ → List α) :
    waiting (before ++ behind) queues = waiting before queues ++ waiting behind queues :=
  List.flatMap_append

omit [DecidableEq κ] in
theorem waiting_congr {order : List κ} {queues queues' : κ → List α}
    (h : ∀ key ∈ order, queues key = queues' key) : waiting order queues = waiting order queues' := by
  induction order with
  | nil => rfl
  | cons key order ih =>
    rw [waiting_cons, waiting_cons, h key (by simp), ih fun k hk => h k (by simp [hk])]

theorem serve_of_notMem {order : List κ} {key : κ} (h : key ∉ order) (n : ℕ) (queues : κ → List α) :
    serve order n queues key = queues key := by
  induction order generalizing n queues with
  | nil => rfl
  | cons first order ih =>
    rw [List.mem_cons, not_or] at h
    rw [serve, ih h.2, Function.update_of_ne h.1]

theorem serve_zero (order : List κ) (queues : κ → List α) : serve order 0 queues = queues := by
  induction order generalizing queues with
  | nil => rfl
  | cons key order ih => rw [serve, List.drop_zero, Function.update_eq_self, Nat.zero_sub, ih]

theorem serve_suffix (order : List κ) (n : ℕ) (queues : κ → List α) (key : κ) :
    serve order n queues key <:+ queues key := by
  induction order generalizing n queues with
  | nil => exact List.suffix_refl _
  | cons first order ih =>
    refine (ih _ _).trans ?_
    by_cases hkey : key = first
    · subst hkey
      rw [Function.update_self]
      exact List.drop_suffix _ _
    · rw [Function.update_of_ne hkey]

theorem waiting_serve {order : List κ} (hnodup : order.Nodup) (n : ℕ) (queues : κ → List α) :
    waiting order (serve order n queues) = (waiting order queues).drop n := by
  induction order generalizing n queues with
  | nil => simp
  | cons key order ih =>
    obtain ⟨hnot, hnodup⟩ := List.nodup_cons.mp hnodup
    rw [waiting_cons, waiting_cons, serve, serve_of_notMem hnot, Function.update_self, ih hnodup,
      List.drop_append]
    congr 2
    refine waiting_congr fun k hk => ?_
    rw [Function.update_of_ne (ne_of_mem_of_not_mem hk hnot)]

theorem serve_append {before : List κ} (hnodup : before.Nodup) (behind : List κ) (n : ℕ)
    (queues : κ → List α) :
    serve (before ++ behind) n queues =
      serve behind (n - (waiting before queues).length) (serve before n queues) := by
  induction before generalizing n queues with
  | nil => rfl
  | cons key before ih =>
    obtain ⟨hnot, hnodup⟩ := List.nodup_cons.mp hnodup
    have hrest : waiting before (Function.update queues key ((queues key).drop n)) =
        waiting before queues := waiting_congr fun k hk =>
      Function.update_of_ne (ne_of_mem_of_not_mem hk hnot) _ _
    rw [List.cons_append, serve, serve, ih hnodup, hrest, waiting_cons, List.length_append,
      Nat.sub_sub]

theorem waiting_serve_append {before behind : List κ} (hnodup : (before ++ behind).Nodup) (n : ℕ)
    (queues : κ → List α) :
    waiting before (serve (before ++ behind) n queues) = (waiting before queues).drop n ∧
      waiting behind (serve (before ++ behind) n queues) =
        (waiting behind queues).drop (n - (waiting before queues).length) := by
  obtain ⟨hbefore, hbehind, hapart⟩ := List.nodup_append.mp hnodup
  rw [serve_append hbefore]
  constructor
  · rw [← waiting_serve hbefore]
    exact waiting_congr fun k hk =>
      serve_of_notMem (fun hk' => hapart k hk k hk' rfl) _ _
  · rw [waiting_serve hbehind]
    congr 1
    exact waiting_congr fun k hk =>
      serve_of_notMem (fun hk' => hapart k hk' k hk rfl) _ _

omit [DecidableEq κ] in
theorem waiting_eq_nil_iff {order : List κ} {queues : κ → List α} :
    waiting order queues = [] ↔ ∀ key ∈ order, queues key = [] := List.flatMap_eq_nil_iff

omit [DecidableEq κ] in
theorem waiting_eq_cons {order : List κ} {queues : κ → List α} {a : α} {rest : List α}
    (h : waiting order queues = a :: rest) : ∃ before key behind tail,
    order = before ++ key :: behind ∧ waiting before queues = [] ∧ queues key = a :: tail := by
  induction order with
  | nil => simp at h
  | cons first order ih =>
    cases hfirst : queues first with
    | nil =>
      rw [waiting_cons, hfirst, List.nil_append] at h
      obtain ⟨before, key, behind, tail, horder, hempty, hkey⟩ := ih h
      refine ⟨first :: before, key, behind, tail, by rw [horder]; rfl, ?_, hkey⟩
      rw [waiting_cons, hfirst, hempty]
      rfl
    | cons b tail =>
      rw [waiting_cons, hfirst, List.cons_append] at h
      cases h
      exact ⟨[], first, order, tail, rfl, rfl, hfirst⟩

theorem serve_one {before behind : List κ} {key : κ} {queues : κ → List α} {a : α} {tail : List α}
    (hempty : waiting before queues = []) (hkey : queues key = a :: tail) :
    serve (before ++ key :: behind) 1 queues = Function.update queues key tail := by
  induction before with
  | nil =>
    rw [List.nil_append, serve, hkey, List.length_cons, List.drop_one, List.tail_cons,
      Nat.sub_eq_zero_of_le (Nat.le_add_left 1 tail.length), serve_zero]
  | cons first before ih =>
    rw [waiting_cons, List.append_eq_nil_iff] at hempty
    rw [List.cons_append, serve, hempty.1, List.drop_nil, ← hempty.1, Function.update_eq_self,
      hempty.1, List.length_nil, Nat.sub_zero]
    exact ih hempty.2

end WatchingZenoh.StrictPriority
