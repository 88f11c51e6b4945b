import Mathlib.Data.List.Basic

/-! Runs of a step function that answers every input, or fails. What every step keeps holds at the end
of a run; where a step needs something of its input, the run has to offer it at every state it passes.
-/

namespace WatchingZenoh.Steps

variable {σ ι ο : Type*}

/-- The inputs one after another, with the answer to each; a failed step fails the run. -/
def run (step : σ → ι → Option (σ × ο)) : σ → List ι → Option (σ × List ο)
  | s, [] => some (s, [])
  | s, i :: inputs => do
    let (s, answer) ← step s i
    let (s, answers) ← run step s inputs
    some (s, answer :: answers)

variable {step : σ → ι → Option (σ × ο)} {s s' s'' : σ}

theorem run_cons {i : ι} {inputs : List ι} {answer : ο} {answers : List ο}
    (h : step s i = some (s', answer)) (hrest : run step s' inputs = some (s'', answers)) :
    run step s (i :: inputs) = some (s'', answer :: answers) := by
  simp [run, h, hrest]

theorem run_append {xs ys : List ι} {answers : List ο}
    (h : run step s (xs ++ ys) = some (s'', answers)) : ∃ s' first rest,
    run step s xs = some (s', first) ∧ run step s' ys = some (s'', rest) ∧ answers = first ++ rest := by
  induction xs generalizing s answers with
  | nil => exact ⟨s, [], answers, rfl, h, rfl⟩
  | cons i xs ih =>
    simp only [List.cons_append, run, Option.bind_eq_bind, Option.bind_eq_some_iff] at h
    obtain ⟨⟨mid, answer⟩, hmid, ⟨last, answers'⟩, hlast, heq⟩ := h
    cases heq
    obtain ⟨s', first, rest, hfirst, hrest, rfl⟩ := ih hlast
    exact ⟨s', answer :: first, rest, run_cons hmid hfirst, hrest, rfl⟩

/-- A property of the inputs so far and the state that every step answers and carries on holds along
every run, and no run fails. -/
theorem run_keeps {P : List ι → σ → Prop}
    (hstep : ∀ past s i, P past s → ∃ s' answer, step s i = some (s', answer) ∧ P (past ++ [i]) s')
    (inputs : List ι) {past : List ι} {s : σ} (h : P past s) :
    ∃ s' answers, run step s inputs = some (s', answers) ∧ P (past ++ inputs) s' := by
  induction inputs generalizing past s with
  | nil => exact ⟨s, [], rfl, by simpa using h⟩
  | cons i inputs ih =>
    obtain ⟨s', answer, hs', hP⟩ := hstep past s i h
    obtain ⟨s'', answers, hrun, hP'⟩ := ih hP
    exact ⟨s'', answer :: answers, run_cons hs' hrun, by simpa using hP'⟩

theorem run_preserves {I : σ → Prop}
    (hstep : ∀ s i s' answer, I s → step s i = some (s', answer) → I s') {inputs : List ι} {s s' : σ}
    {answers : List ο} (h : I s) (hrun : run step s inputs = some (s', answers)) : I s' := by
  induction inputs generalizing s answers with
  | nil =>
    cases hrun
    exact h
  | cons i inputs ih =>
    simp only [run, Option.bind_eq_bind, Option.bind_eq_some_iff] at hrun
    obtain ⟨⟨mid, answer⟩, hmid, ⟨last, rest⟩, hlast, heq⟩ := hrun
    cases heq
    exact ih (hstep s i mid answer h hmid) hlast

/-- Every input of a run meets the state before it as `P` asks. -/
def Along (step : σ → ι → Option (σ × ο)) (P : σ → ι → Prop) : σ → List ι → Prop
  | _, [] => True
  | s, i :: inputs => P s i ∧ ∀ s' answer, step s i = some (s', answer) → Along step P s' inputs

/-- Every state of a run is as `P` asks, the first and the last among them. -/
def Throughout (step : σ → ι → Option (σ × ο)) (P : σ → Prop) : σ → List ι → Prop
  | s, [] => P s
  | s, i :: inputs => P s ∧ ∀ s' answer, step s i = some (s', answer) → Throughout step P s' inputs

theorem Along.imp {P Q : σ → ι → Prop} (hPQ : ∀ s i, P s i → Q s i) {inputs : List ι} {s : σ}
    (h : Along step P s inputs) : Along step Q s inputs := by
  induction inputs generalizing s with
  | nil => trivial
  | cons i inputs ih => exact ⟨hPQ s i h.1, fun s' answer hs' => ih (h.2 s' answer hs')⟩

theorem Along.strengthen {P Q : σ → ι → Prop} {I : σ → Prop} (hPQ : ∀ s i, I s → P s i → Q s i)
    (hI : ∀ s i s' answer, I s → P s i → step s i = some (s', answer) → I s') {inputs : List ι} {s : σ}
    (h : Along step P s inputs) (hs : I s) : Along step Q s inputs := by
  induction inputs generalizing s with
  | nil => trivial
  | cons i inputs ih =>
    exact ⟨hPQ s i hs h.1, fun s' answer hs' =>
      ih (h.2 s' answer hs') (hI s i s' answer hs h.1 hs')⟩

/-- A test of every input of a run against the state before it. -/
def check (step : σ → ι → Option (σ × ο)) (p : σ → ι → Bool) : σ → List ι → Bool
  | _, [] => true
  | s, i :: inputs => p s i && (step s i).all fun r => check step p r.1 inputs

theorem along_of_check {p : σ → ι → Bool} {P : σ → ι → Prop} (hp : ∀ s i, p s i = true → P s i)
    {inputs : List ι} {s : σ} (h : check step p s inputs = true) : Along step P s inputs := by
  induction inputs generalizing s with
  | nil => trivial
  | cons i inputs ih =>
    rw [check, Bool.and_eq_true] at h
    refine ⟨hp s i h.1, fun s' answer hs' => ih ?_⟩
    rw [hs'] at h
    exact h.2

theorem run_keeps_along {P : σ → ι → Prop} {I : σ → Prop}
    (hstep : ∀ s i, I s → P s i → ∃ s' answer, step s i = some (s', answer) ∧ I s')
    (inputs : List ι) {s : σ} (h : I s) (halong : Along step P s inputs) :
    ∃ s' answers, run step s inputs = some (s', answers) ∧ I s' := by
  induction inputs generalizing s with
  | nil => exact ⟨s, [], rfl, h⟩
  | cons i inputs ih =>
    obtain ⟨hi, hrest⟩ := halong
    obtain ⟨s', answer, hs', hI⟩ := hstep s i h hi
    obtain ⟨s'', answers, hrun, hI'⟩ := ih hI (hrest s' answer hs')
    exact ⟨s'', answer :: answers, run_cons hs' hrun, hI'⟩

theorem foldlM_keeps {f : σ → ι → Option σ} {P : List ι → σ → Prop} (inputs : List ι)
    (hstep : ∀ past s, ∀ i ∈ inputs, P past s → ∃ s', f s i = some s' ∧ P (past ++ [i]) s')
    (past : List ι) {s : σ} (h : P past s) :
    ∃ s', inputs.foldlM f s = some s' ∧ P (past ++ inputs) s' := by
  induction inputs generalizing past s with
  | nil => exact ⟨s, rfl, by simpa using h⟩
  | cons i inputs ih =>
    obtain ⟨s', hs', hP⟩ := hstep past s i (by simp) h
    obtain ⟨s'', hrun, hP'⟩ := ih (fun past s j hj => hstep past s j (by simp [hj])) _ hP
    exact ⟨s'', by simp [List.foldlM_cons, hs', hrun], by simpa using hP'⟩

theorem foldlM_preserves {f : σ → ι → Option σ} {P : σ → Prop}
    (hstep : ∀ s i s', P s → f s i = some s' → P s') {inputs : List ι} {s s' : σ} (h : P s)
    (hrun : inputs.foldlM f s = some s') : P s' := by
  induction inputs generalizing s with
  | nil =>
    cases hrun
    exact h
  | cons i inputs ih =>
    rw [List.foldlM_cons] at hrun
    obtain ⟨mid, hmid, hrest⟩ := Option.bind_eq_some_iff.mp hrun
    exact ih (hstep s i mid h hmid) hrest

theorem foldl_keeps {f : σ → ι → σ} {P : List ι → σ → Prop}
    (hstep : ∀ past s i, P past s → P (past ++ [i]) (f s i)) (inputs : List ι) (past : List ι)
    {s : σ} (h : P past s) : P (past ++ inputs) (inputs.foldl f s) := by
  induction inputs generalizing past s with
  | nil => simpa using h
  | cons i inputs ih => simpa using ih _ (hstep past s i h)

end WatchingZenoh.Steps
