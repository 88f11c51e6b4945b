import Mathlib

/-! What the selector said of a row, as a pattern the row names. The distinct answers stand once in a
trie: a pattern is its parent's records with one more, and a row is its pattern's number. -/

namespace WatchingZenoh

inductive Truth
  | yes
  | no
  | unknown
deriving DecidableEq, Repr

namespace VerdictColumn

def empty : ℕ := 0

def unset : ℕ := 2 ^ 32 - 1

def word : Truth → Fin 3
  | .yes => 0
  | .no => 1
  | .unknown => 2

structure Pattern where
  verdict : List Truth
  next : Fin 3 → ℕ

structure Patterns where
  list : List Pattern

namespace Patterns

def default : Patterns := ⟨[⟨[], fun _ => unset⟩]⟩

/-- The list with one more pattern, made the child of `start`. -/
def grown (list : List Pattern) (start : ℕ) (truth : Truth) (verdict : List Truth) : List Pattern :=
  (list ++ [Pattern.mk verdict fun _ => unset]).modify start fun p =>
    { p with next := Function.update p.next (word truth) list.length }

/-- The pattern that is the records of `start` and one more. A number past 32 bits panics. -/
def extend (ps : Patterns) (start : ℕ) (truth : Truth) : Option (Patterns × ℕ) := do
  let pattern ← ps.list[start]?
  let child := pattern.next (word truth)
  if child ≠ unset then some (ps, child)
  else if 2 ^ 32 ≤ ps.list.length then none
  else some (⟨grown ps.list start truth (pattern.verdict ++ [truth])⟩, ps.list.length)

def verdict (ps : Patterns) (number : ℕ) : Option (List Truth) := ps.list[number]?.map Pattern.verdict

/-- The pattern with no record stands first, and a child is its parent with one more record. -/
structure Trie (ps : Patterns) : Prop where
  root : ps.verdict empty = some []
  child : ∀ (i : ℕ) (p : Pattern) (t : Truth), ps.list[i]? = some p → p.next (word t) ≠ unset →
    ps.verdict (p.next (word t)) = some (p.verdict ++ [t])

theorem trie_default : default.Trie := by
  refine ⟨rfl, fun i p t hp hset => ?_⟩
  cases i with
  | zero =>
    rw [default, List.getElem?_cons_zero, Option.some.injEq] at hp
    subst hp
    simp at hset
  | succ i => simp [default] at hp

theorem word_injective : Function.Injective word := by
  intro a b
  cases a <;> cases b <;> decide

variable {ps ps' : Patterns} {start number : ℕ} {truth : Truth} {v : List Truth}

theorem extend_isSome (hstart : ps.verdict start = some v) (hlen : ps.list.length < 2 ^ 32) :
    (ps.extend start truth).isSome := by
  obtain ⟨p, hp, -⟩ := Option.map_eq_some_iff.mp hstart
  rw [extend, hp]
  simp only [Option.bind_eq_bind, Option.bind_some]
  split_ifs with hset hfull
  · rfl
  · omega
  · rfl

/-- The pattern made or found has one more record, and every number keeps its meaning. -/
structure Extends (ps ps' : Patterns) (number : ℕ) (v : List Truth) : Prop where
  trie : ps'.Trie
  made : ps'.verdict number = some v
  kept : ∀ i w, ps.verdict i = some w → ps'.verdict i = some w
  length : ps'.list.length ≤ ps.list.length + 1

theorem verdict_grown (list : List Pattern) (start : ℕ) (truth : Truth) (v : List Truth) (i : ℕ) :
    Patterns.verdict ⟨grown list start truth v⟩ i =
      if i = list.length then some v else Patterns.verdict ⟨list⟩ i := by
  have hmodify : Patterns.verdict ⟨grown list start truth v⟩ i =
      (list ++ [Pattern.mk v fun _ => unset])[i]?.map Pattern.verdict := by
    simp only [Patterns.verdict, grown, List.getElem?_modify]
    cases (list ++ [Pattern.mk v fun _ => unset])[i]? with
    | none => rfl
    | some q =>
      simp only [Option.map_some]
      split_ifs <;> rfl
  rw [hmodify]
  split_ifs with hi
  · subst hi
    simp
  · by_cases hlt : i < list.length
    · rw [List.getElem?_append_left hlt]
      rfl
    · rw [List.getElem?_eq_none (by simp; omega), Patterns.verdict,
        List.getElem?_eq_none (by simp only; omega)]

theorem Trie.extend (h : ps.Trie) (hstart : ps.verdict start = some v)
    (hrun : ps.extend start truth = some (ps', number)) :
    Extends ps ps' number (v ++ [truth]) := by
  obtain ⟨p, hp, rfl⟩ := Option.map_eq_some_iff.mp hstart
  rw [Patterns.extend, hp] at hrun
  simp only [Option.bind_eq_bind, Option.bind_some] at hrun
  split_ifs at hrun with hset hfull
  · obtain ⟨rfl, rfl⟩ := Prod.mk.inj (Option.some.inj hrun)
    exact ⟨h, h.child start p truth hp hset, fun i w hw => hw, by omega⟩
  · obtain ⟨rfl, rfl⟩ := Prod.mk.inj (Option.some.inj hrun)
    have hgrown := verdict_grown ps.list start truth (p.verdict ++ [truth])
    have hkept : ∀ i w, ps.verdict i = some w →
        Patterns.verdict ⟨grown ps.list start truth (p.verdict ++ [truth])⟩ i = some w := by
      intro i w hw
      have hlt : i < ps.list.length := by
        obtain ⟨q, hq, -⟩ := Option.map_eq_some_iff.mp hw
        exact (List.getElem?_eq_some_iff.mp hq).1
      rw [hgrown, if_neg (by omega)]
      exact hw
    refine ⟨⟨hkept empty [] h.root, fun i q t hq hnext => ?_⟩, ?_, hkept, ?_⟩
    · simp only [grown, List.getElem?_modify] at hq
      obtain ⟨old, hold, rfl⟩ := Option.map_eq_some_iff.mp hq
      by_cases hlink : start = i ∧ truth = t
      · obtain ⟨rfl, rfl⟩ := hlink
        have hlt := (List.getElem?_eq_some_iff.mp hp).1
        rw [List.getElem?_append_left hlt, hp, Option.some.injEq] at hold
        subst hold
        simp only [if_true, Function.update_self]
        rw [hgrown, if_pos rfl]
      · have hsame : (if start = i then { old with
            next := Function.update old.next (word truth) ps.list.length } else old : Pattern).next
              (word t) = old.next (word t) := by
          split_ifs with hi
          · have hne : word t ≠ word truth := fun heq => hlink ⟨hi, (word_injective heq).symm⟩
            simp only [Function.update_of_ne hne]
          · rfl
        have hverdict : (if start = i then { old with
            next := Function.update old.next (word truth) ps.list.length } else old : Pattern).verdict =
              old.verdict := by
          split_ifs <;> rfl
        rw [hsame] at hnext ⊢
        rw [hverdict]
        by_cases hlt : i < ps.list.length
        · rw [List.getElem?_append_left hlt] at hold
          exact hkept _ _ (h.child i old t hold hnext)
        · rw [List.getElem?_append_right (by omega)] at hold
          have hold' := List.mem_of_getElem? hold
          rw [List.mem_singleton] at hold'
          subst hold'
          exact absurd rfl hnext
    · rw [hgrown, if_pos rfl]
    · simp [grown]

end Patterns

end VerdictColumn

end WatchingZenoh
