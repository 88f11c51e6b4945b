import Mathlib.Data.List.Basic
import Mathlib.Data.List.Infix

/-! Words made of given parts in a given order, with anything between two neighbours. The first
part stands at the start of the word and the last one at its end. A search that takes the
leftmost occurrence of each part in turn decides the question, because an earlier occurrence
only leaves a longer rest. -/

namespace WatchingZenoh.Gaps

variable {α : Type*}

def Spells : List (List α) → List α → Prop
  | [], w => w = []
  | [last], w => w = last
  | p :: q :: rest, w => ∃ gap v, w = p ++ (gap ++ v) ∧ Spells (q :: rest) v

def Trails (parts : List (List α)) (w : List α) : Prop :=
  ∃ gap v, w = gap ++ v ∧ Spells parts v

theorem spells_cons {p : List α} {parts : List (List α)} (hne : parts ≠ []) {w : List α} :
    Spells (p :: parts) w ↔ ∃ v, w = p ++ v ∧ Trails parts v := by
  obtain ⟨q, rest, rfl⟩ := List.exists_cons_of_ne_nil hne
  constructor
  · rintro ⟨gap, v, rfl, h⟩
    exact ⟨gap ++ v, rfl, gap, v, rfl, h⟩
  · rintro ⟨_, rfl, gap, v, rfl, h⟩
    exact ⟨gap, v, rfl, h⟩

theorem trails_singleton {p w : List α} : Trails [p] w ↔ p <:+ w := by
  constructor
  · rintro ⟨gap, v, rfl, rfl⟩
    exact List.suffix_append gap v
  · rintro ⟨gap, rfl⟩
    exact ⟨gap, p, rfl, rfl⟩

theorem Trails.mono {parts : List (List α)} {v w : List α} (h : Trails parts v) (hs : v <:+ w) :
    Trails parts w := by
  obtain ⟨gap, u, rfl, h⟩ := h
  obtain ⟨front, rfl⟩ := hs
  exact ⟨front ++ gap, u, by simp, h⟩

theorem trails_cons {p : List α} {parts : List (List α)} (hne : parts ≠ []) {w : List α} :
    Trails (p :: parts) w ↔ ∃ gap v, w = gap ++ (p ++ v) ∧ Trails parts v := by
  constructor
  · rintro ⟨gap, _, rfl, h⟩
    obtain ⟨v, rfl, htail⟩ := (spells_cons hne).mp h
    exact ⟨gap, v, rfl, htail⟩
  · rintro ⟨gap, v, rfl, h⟩
    exact ⟨gap, p ++ v, rfl, (spells_cons hne).mpr ⟨v, rfl, h⟩⟩

theorem spells_cons_cons {a : α} {p : List α} {parts : List (List α)} {w : List α} :
    Spells ((a :: p) :: parts) w ↔ ∃ v, w = a :: v ∧ Spells (p :: parts) v := by
  rcases parts with _ | ⟨q, rest⟩
  · simp [Spells]
  · constructor
    · rintro ⟨gap, v, rfl, h⟩
      exact ⟨p ++ (gap ++ v), rfl, gap, v, rfl, h⟩
    · rintro ⟨_, rfl, gap, v, rfl, h⟩
      exact ⟨gap, v, rfl, h⟩

theorem Trails.suffix_last {parts : List (List α)} {last w : List α}
    (h : Trails (parts ++ [last]) w) : last <:+ w := by
  induction parts generalizing w with
  | nil => exact trails_singleton.mp h
  | cons p parts ih =>
    rw [List.cons_append, trails_cons (by simp)] at h
    obtain ⟨gap, v, rfl, h⟩ := h
    exact (ih h).trans ⟨gap ++ p, by simp⟩

theorem spells_flatten (p l : List α) (mids : List (List α)) (front back : List α) :
    Spells (p :: (mids ++ [l])) (p ++ (front ++ (mids.flatten ++ (back ++ l)))) := by
  rw [spells_cons (by simp)]
  refine ⟨_, rfl, ?_⟩
  induction mids generalizing front with
  | nil => exact trails_singleton.mpr ⟨front ++ back, by simp⟩
  | cons m mids ih =>
    rw [List.cons_append, trails_cons (by simp)]
    exact ⟨front, mids.flatten ++ (back ++ l), by simp, by simpa using ih []⟩

section Search

variable [DecidableEq α]

/-- Where `needle` first occurs in a word. -/
def firstAt (needle : List α) : List α → Option ℕ
  | [] => if needle.isPrefixOf [] then some 0 else none
  | a :: w => if needle.isPrefixOf (a :: w) then some 0 else (firstAt needle w).map (· + 1)

theorem firstAt_of_starts {needle w : List α} (h : needle <+: w) : firstAt needle w = some 0 := by
  cases w <;> simp [firstAt, List.isPrefixOf_iff_prefix.mpr h]

theorem firstAt_cons_of_not_starts {needle w : List α} {a : α} (h : ¬ needle <+: a :: w) :
    firstAt needle (a :: w) = (firstAt needle w).map (· + 1) := by
  rw [firstAt, if_neg (by rwa [List.isPrefixOf_iff_prefix])]

theorem firstAt_spec {needle : List α} {gap v w : List α} (h : w = gap ++ (needle ++ v)) :
    ∃ n, firstAt needle w = some n ∧ v <:+ w.drop (n + needle.length) ∧
      w = w.take n ++ (needle ++ w.drop (n + needle.length)) := by
  induction gap generalizing w with
  | nil =>
    subst h
    refine ⟨0, firstAt_of_starts (List.prefix_append needle v), ?_, ?_⟩ <;> simp
  | cons a gap ih =>
    subst h
    by_cases hp : needle <+: a :: (gap ++ (needle ++ v))
    · obtain ⟨u, hu⟩ := hp
      refine ⟨0, firstAt_of_starts ⟨u, hu⟩, ?_, ?_⟩
      · rw [List.cons_append, ← hu]
        simp only [Nat.zero_add, List.drop_left]
        have hv : v <:+ needle ++ u := by
          rw [hu]
          exact ⟨a :: (gap ++ needle), by simp⟩
        have hlen := congrArg List.length hu
        simp only [List.length_append, List.length_cons] at hlen
        exact List.suffix_of_suffix_length_le hv (List.suffix_append needle u) (by omega)
      · rw [List.cons_append, ← hu]
        simp
    · obtain ⟨n, hn, hs, hw⟩ := ih rfl
      refine ⟨n + 1, ?_, ?_, ?_⟩
      · rw [List.cons_append, firstAt_cons_of_not_starts hp, hn]
        rfl
      · rw [show n + 1 + needle.length = (n + needle.length) + 1 by omega]
        simpa using hs
      · rw [show n + 1 + needle.length = (n + needle.length) + 1 by omega]
        simpa using hw

theorem trails_of_firstAt {p : List α} {parts : List (List α)} (hne : parts ≠ []) {w : List α}
    {n : ℕ} (hn : firstAt p w = some n) :
    Trails (p :: parts) w ↔ Trails parts (w.drop (n + p.length)) := by
  have hocc : ∀ {w : List α} {n : ℕ}, firstAt p w = some n → ∃ gap v, w = gap ++ (p ++ v) := by
    intro w
    induction w with
    | nil =>
      intro n h
      by_cases hp : p <+: []
      · exact ⟨[], [], by simpa using hp⟩
      · rw [firstAt, if_neg (by rwa [List.isPrefixOf_iff_prefix])] at h
        simp at h
    | cons a w ih =>
      intro n h
      by_cases hp : p <+: a :: w
      · obtain ⟨v, hv⟩ := hp
        exact ⟨[], v, hv.symm⟩
      · rw [firstAt_cons_of_not_starts hp] at h
        obtain ⟨m, hm, _⟩ := Option.map_eq_some_iff.mp h
        obtain ⟨gap, v, rfl⟩ := ih hm
        exact ⟨a :: gap, v, rfl⟩
  rw [trails_cons hne]
  constructor
  · rintro ⟨gap, v, hw, h⟩
    obtain ⟨m, hm, hs, _⟩ := firstAt_spec hw
    obtain rfl : n = m := by simpa [hn] using hm
    exact h.mono hs
  · intro h
    obtain ⟨gap, v, hw⟩ := hocc hn
    obtain ⟨m, hm, _, hw'⟩ := firstAt_spec hw
    obtain rfl : n = m := by simpa [hn] using hm
    exact ⟨_, _, hw', h⟩

theorem not_trails_of_firstAt {p : List α} {parts : List (List α)} (hne : parts ≠ [])
    {w : List α} (hn : firstAt p w = none) : ¬ Trails (p :: parts) w := by
  rw [trails_cons hne]
  rintro ⟨gap, v, hw, _⟩
  obtain ⟨m, hm, _⟩ := firstAt_spec hw
  simp [hn] at hm

end Search

end WatchingZenoh.Gaps
