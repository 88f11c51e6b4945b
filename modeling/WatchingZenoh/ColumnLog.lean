import WatchingZenoh.ColumnChunkRows
import WatchingZenoh.Library.Bisect

/-! The log of rows: a list of chunks, of which the oldest rows are released from the front. A position
is looked for around a hint first, which may be any number, and then among all chunks. The chunks are a
chain, each of which starts where the one before it ends. -/

namespace WatchingZenoh.ColumnLog

open Bisect

variable {C : ℕ}

structure ColumnLog (C : ℕ) where
  kinds : Fin C → Kind
  chunks : List (Chunk C)
  pushed : ℕ
  released : ℕ

namespace ColumnLog

def new (kinds : Fin C → Kind) : ColumnLog C := ⟨kinds, [], 0, 0⟩

def len (log : ColumnLog C) : Option ℕ :=
  if log.pushed < log.released then none else some (log.pushed - log.released)

/-- A new chunk of one row behind the chunks. -/
def begun (log : ColumnLog C) (chunks : List (Chunk C)) (row : Row C) (cap : ℕ) : ColumnLog C :=
  { log with
    chunks := chunks ++ [Chunk.fromRows log.pushed log.kinds [row] cap]
    pushed := log.pushed + 1 }

def pushBack (log : ColumnLog C) (row : Row C) : Option (ColumnLog C) :=
  match log.chunks.getLast? with
  | some last =>
    if last.takes log.kinds row then
      (last.append log.kinds row).map fun last =>
        { log with chunks := log.chunks.dropLast ++ [last], pushed := log.pushed + 1 }
    else if last.len = chunkItems then some (log.begun log.chunks row chunkItems)
    else some (log.begun (log.chunks.dropLast ++ [last.shrinkToFit]) row firstRows)
  | none => some (log.begun log.chunks row firstRows)

/-- The chunk at a guess, when the row is in it. -/
def guessed (log : ColumnLog C) (at' guess : ℕ) : Option (ℕ × ℕ) := do
  let chunk ← log.chunks[guess]?
  if chunk.start ≤ at' ∧ at' < chunk.start + chunk.len then some (guess, at' - chunk.start) else none

def locate (log : ColumnLog C) (hint at' : ℕ) : Option (ℕ × ℕ) :=
  if log.pushed ≤ at' ∨ at' < log.released then none
  else
    ([hint, hint + 1, (hint + (2 ^ 64 - 1)) % 2 ^ 64].findSome? (log.guessed at')).or do
      let chunk := (log.chunks.takeWhile fun c => c.start ≤ at').length
      if chunk = 0 then none
      else (log.chunks[chunk - 1]?).map fun c => (chunk - 1, at' - c.start)

/-- The chunk and the place of the row at an index, counted from the oldest held. -/
def locateIndex (log : ColumnLog C) (hint index : ℕ) : Option (Chunk C × ℕ × ℕ) := do
  let (chunk, at') ← log.locate hint (log.released + index)
  let c ← log.chunks[chunk]?
  some (c, chunk, at')

def get (log : ColumnLog C) (hint index : ℕ) : Option (Option (Row C)) :=
  match log.locateIndex hint index with
  | none => some none
  | some (c, _, at') => c.row at'

def column (log : ColumnLog C) (hint index : ℕ) (col : Fin C) : Option (Option ℕ) :=
  match log.locateIndex hint index with
  | none => some none
  | some (c, _, at') => if at' < c.len then (c.value col at').map some else some none

def set (log : ColumnLog C) (hint index : ℕ) (row : Row C) : Option (Bool × ColumnLog C) :=
  match log.locateIndex hint index with
  | none => some (false, log)
  | some (c, chunk, at') =>
    (c.set log.kinds at' row).map fun c => (true, { log with chunks := log.chunks.set chunk c })

def front (log : ColumnLog C) (hint : ℕ) : Option (Option (Row C)) := log.get hint 0

def back (log : ColumnLog C) (hint : ℕ) : Option (Option (Row C)) :=
  log.len.bind fun len => if len = 0 then some none else log.get hint (len - 1)

/-- The log with its oldest row released, and its first chunk given back with its last row. -/
def advance (log : ColumnLog C) (first : Chunk C) : ColumnLog C :=
  { log with
    released := log.released + 1
    chunks := if first.start + first.len ≤ log.released + 1 then log.chunks.tail else log.chunks }

def popFront (log : ColumnLog C) : Option (Option (Row C) × ColumnLog C) :=
  match log.chunks.head? with
  | none => some (none, log)
  | some first =>
    if log.released < first.start then none
    else (first.row (log.released - first.start)).map fun row =>
      (row, if row.isSome then log.advance first else log)

/-- The predicate of the last row of a chunk. -/
def askLast (log : ColumnLog C) (col : Fin C) (pred : ℕ → Bool) (mid : ℕ) : Option Bool := do
  let last ← log.chunks[mid]?
  if last.len = 0 then none else (last.value col (last.len - 1)).map pred

def partitionPointByColumn (log : ColumnLog C) (col : Fin C) (pred : ℕ → Bool) : Option ℕ := do
  let low ← bisect (log.askLast col pred) 0 log.chunks.length
  match log.chunks[low]? with
  | none => log.len
  | some chunk =>
    if low = 0 ∧ log.released < chunk.start then none
    else do
      let floor := if low = 0 then log.released - chunk.start else 0
      let a ← bisect (fun mid => (chunk.value col mid).map pred) floor chunk.len
      if chunk.start + a < log.released then none else some (chunk.start + a - log.released)

/-- The iterator's next row and where it then stands: a chunk, and a place in it. -/
def next (chunks : List (Chunk C)) (chunk at' : ℕ) : Option (Option (Row C × ℕ × ℕ)) :=
  match hc : chunks[chunk]? with
  | none => some none
  | some c =>
    (c.row at').bind fun
      | some row => some (some (row, chunk, at' + 1))
      | none => next chunks (chunk + 1) 0
termination_by chunks.length - chunk
decreasing_by
  have hlt := (List.getElem?_eq_some_iff.mp hc).1
  omega

/-- The rows of so many calls of the iterator. -/
def nexts (chunks : List (Chunk C)) : ℕ → ℕ → ℕ → Option (List (Row C))
  | 0, _, _ => some []
  | n + 1, chunk, at' =>
    (next chunks chunk at').bind fun
      | none => some []
      | some (row, chunk, at') => (nexts chunks n chunk at').map (row :: ·)

/-- The first `n` rows from a position on. -/
def iterFrom (log : ColumnLog C) (hint first n : ℕ) : Option (List (Row C)) :=
  match log.locate hint (log.released + first) with
  | none => nexts log.chunks n log.chunks.length 0
  | some (chunk, at') => nexts log.chunks n chunk at'

end ColumnLog

variable {kinds : Fin C → Kind} {c : Chunk C} {chunks : List (Chunk C)} {all : List (Row C)}
  {start at' k : ℕ}

/-- Chunks of rows that follow one another, the first row of which has this number. -/
inductive Chain (kinds : Fin C → Kind) : ℕ → List (Chunk C) → List (Row C) → Prop
  | nil (start : ℕ) : Chain kinds start [] []
  | cons {start : ℕ} {c : Chunk C} {part : List (Row C)} {chunks : List (Chunk C)}
      {rest : List (Row C)} (hstart : c.start = start) (holds : c.Holds kinds part)
      (hne : part ≠ []) (hchain : Chain kinds (start + part.length) chunks rest) :
      Chain kinds start (c :: chunks) (part ++ rest)

namespace Chain

theorem append (h : Chain kinds start chunks all) {more : List (Chunk C)} {rows : List (Row C)}
    (hmore : Chain kinds (start + all.length) more rows) :
    Chain kinds start (chunks ++ more) (all ++ rows) := by
  induction h with
  | nil start => simpa using hmore
  | cons hstart holds hne hchain ih =>
    rw [List.cons_append, List.append_assoc]
    refine cons hstart holds hne (ih ?_)
    simpa [Nat.add_assoc] using hmore

theorem singleton {part : List (Row C)} (hstart : c.start = start) (holds : c.Holds kinds part)
    (hne : part ≠ []) : Chain kinds start [c] part := by
  simpa using cons hstart holds hne (nil _)

theorem eq_nil (h : Chain kinds start [] all) : all = [] := by
  cases h
  rfl

theorem cons_inv (h : Chain kinds start (c :: chunks) all) :
    ∃ part rest, all = part ++ rest ∧ c.start = start ∧ c.Holds kinds part ∧ part ≠ [] ∧
      Chain kinds (start + part.length) chunks rest := by
  cases h with
  | cons hstart holds hne hchain => exact ⟨_, _, rfl, hstart, holds, hne, hchain⟩

theorem concat_inv (h : Chain kinds start (chunks ++ [c]) all) :
    ∃ before part, all = before ++ part ∧ Chain kinds start chunks before ∧
      c.start = start + before.length ∧ c.Holds kinds part ∧ part ≠ [] := by
  induction chunks generalizing start all with
  | nil =>
    obtain ⟨part, rest, rfl, hstart, holds, hne, hrest⟩ := h.cons_inv
    exact ⟨[], part, by rw [hrest.eq_nil]; simp, nil _, hstart, holds, hne⟩
  | cons c₀ chunks ih =>
    obtain ⟨part₀, rest, rfl, hstart₀, holds₀, hne₀, hrest⟩ := h.cons_inv
    obtain ⟨before, part, rfl, hbefore, hstart, holds, hne⟩ := ih hrest
    refine ⟨part₀ ++ before, part, by rw [List.append_assoc], cons hstart₀ holds₀ hne₀ hbefore, ?_,
      holds, hne⟩
    rw [hstart, List.length_append, Nat.add_assoc]

theorem split (h : Chain kinds start chunks all) (hk : chunks[k]? = some c) :
    ∃ before part after, all = before ++ (part ++ after) ∧ c.start = start + before.length ∧
      c.Holds kinds part ∧ part ≠ [] ∧
      ∀ c' part', c'.start = c.start → c'.Holds kinds part' → part'.length = part.length →
        Chain kinds start (chunks.set k c') (before ++ (part' ++ after)) := by
  induction h generalizing k with
  | nil start => simp at hk
  | @cons start c₀ part chunks rest hstart holds hne hchain ih =>
    cases k with
    | zero =>
      obtain rfl : c₀ = c := by simpa using hk
      refine ⟨[], part, rest, rfl, by simpa using hstart, holds, hne, fun c' part' hc' hholds' hlen => ?_⟩
      rw [List.set_cons_zero, List.nil_append]
      refine cons (hc'.trans hstart) hholds' ?_ (by rwa [hlen])
      rw [← List.length_pos_iff] at hne ⊢
      omega
    | succ k =>
      obtain ⟨before, part₁, after, hall, hstart₁, hholds₁, hne₁, hset⟩ := ih (by simpa using hk)
      refine ⟨part ++ before, part₁, after, by rw [hall, List.append_assoc], ?_, hholds₁, hne₁,
        fun c' part' hc' hholds' hlen => ?_⟩
      · rw [hstart₁, List.length_append, Nat.add_assoc]
      · rw [List.set_cons_succ, List.append_assoc]
        exact cons hstart holds hne (hset c' part' hc' hholds' hlen)

theorem locate (h : Chain kinds start chunks all) (at' : ℕ) (hlow : start ≤ at')
    (hhigh : at' < start + all.length) :
    ∃ k c, (chunks.takeWhile fun c => c.start ≤ at').length = k + 1 ∧ chunks[k]? = some c ∧
      c.start ≤ at' ∧ at' < c.start + c.len := by
  induction h with
  | nil start => simp at hhigh; omega
  | @cons start c part chunks rest hstart holds hne hchain ih =>
    rw [List.takeWhile_cons_of_pos (by simpa [hstart] using hlow)]
    by_cases hin : at' < start + part.length
    · have hnone : chunks.takeWhile (fun c => c.start ≤ at') = [] := by
        cases hchain with
        | nil => rfl
        | cons hnext =>
          rw [List.takeWhile_cons_of_neg]
          simp [hnext, hin]
      exact ⟨0, c, by rw [hnone]; rfl, rfl, by omega, by rw [holds.len]; omega⟩
    · obtain ⟨k, c', hlen, hk, hrange⟩ := ih (by omega) (by simp at hhigh; omega)
      exact ⟨k + 1, c', by rw [List.length_cons, hlen], hk, hrange⟩

theorem ends_iff (h : Chain kinds start chunks all) (r : ℕ) (hk : chunks[k]? = some c) :
    c.start + c.len ≤ r ↔ k < (chunks.takeWhile fun c => c.start + c.len ≤ r).length := by
  induction h generalizing k with
  | nil start => simp at hk
  | @cons start c₀ part chunks rest hstart holds hne hchain ih =>
    by_cases hfirst : c₀.start + c₀.len ≤ r
    · rw [List.takeWhile_cons_of_pos (by simpa using hfirst), List.length_cons]
      cases k with
      | zero =>
        obtain rfl : c₀ = c := by simpa using hk
        simpa using hfirst
      | succ k => rw [ih (by simpa using hk), Nat.add_lt_add_iff_right]
    · rw [List.takeWhile_cons_of_neg (by simpa using hfirst), List.length_nil]
      cases k with
      | zero =>
        obtain rfl : c₀ = c := by simpa using hk
        simpa using hfirst
      | succ k =>
        obtain ⟨before, part₁, after, -, hstart₁, -⟩ := hchain.split (k := k) (by simpa using hk)
        rw [hstart, holds.len] at hfirst
        simp only [Nat.not_lt_zero, iff_false]
        omega

theorem start_le (h : Chain kinds start chunks all) {r : ℕ} (hr : start ≤ r)
    (hk : chunks[(chunks.takeWhile fun c => c.start + c.len ≤ r).length]? = some c) :
    c.start ≤ r := by
  induction h with
  | nil start => simp at hk
  | @cons start c₀ part chunks rest hstart holds hne hchain ih =>
    by_cases hfirst : c₀.start + c₀.len ≤ r
    · rw [List.takeWhile_cons_of_pos (by simpa using hfirst), List.length_cons,
        List.getElem?_cons_succ] at hk
      refine ih ?_ hk
      rw [← hstart, ← holds.len]
      exact hfirst
    · rw [List.takeWhile_cons_of_neg (by simpa using hfirst)] at hk
      obtain rfl : c₀ = c := by simpa using hk
      omega

theorem drop (h : Chain kinds start chunks all) (k : ℕ) :
    ∃ before rest, all = before ++ rest ∧
      Chain kinds (start + before.length) (chunks.drop k) rest := by
  induction h generalizing k with
  | nil start => exact ⟨[], [], rfl, by rw [List.drop_nil]; exact nil _⟩
  | @cons start c part chunks rest hstart holds hne hchain ih =>
    cases k with
    | zero => exact ⟨[], part ++ rest, rfl, cons hstart holds hne hchain⟩
    | succ k =>
      obtain ⟨before, rest', rfl, hdrop⟩ := ih k
      refine ⟨part ++ before, rest', by rw [List.append_assoc], ?_⟩
      rw [List.length_append, ← Nat.add_assoc, List.drop_succ_cons]
      exact hdrop

end Chain

/-- An iterator at a place of a chunk has these rows to come. -/
def Stands (kinds : Fin C → Kind) (chunks : List (Chunk C)) (k at' : ℕ) (rows : List (Row C)) : Prop :=
  ∃ start rest, Chain kinds start (chunks.drop k) rest ∧ rows = rest.drop at' ∧
    ∀ c, chunks[k]? = some c → at' ≤ c.len

theorem drop_eq_cons (hk : chunks[k]? = some c) : chunks.drop k = c :: chunks.drop (k + 1) := by
  obtain ⟨hlt, rfl⟩ := List.getElem?_eq_some_iff.mp hk
  exact List.drop_eq_getElem_cons hlt

theorem Stands.next {rows : List (Row C)} (h : Stands kinds chunks k at' rows) :
    (rows = [] ∧ ColumnLog.next chunks k at' = some none) ∨
      ∃ row rest k' place, rows = row :: rest ∧
        ColumnLog.next chunks k at' = some (some (row, k', place)) ∧
        Stands kinds chunks k' place rest := by
  induction hspan : chunks.length - k using Nat.strong_induction_on generalizing k at' with
  | _ span ih =>
    obtain ⟨start, all, hchain, hrows, hplace⟩ := h
    rw [ColumnLog.next.eq_def]
    split
    · rename_i hnone
      rw [List.drop_eq_nil_of_le (List.getElem?_eq_none_iff.mp hnone)] at hchain
      rw [hchain.eq_nil, List.drop_nil] at hrows
      exact .inl ⟨hrows, rfl⟩
    · rename_i c hk
      have hlt := (List.getElem?_eq_some_iff.mp hk).1
      have hwhole := hchain
      rw [drop_eq_cons hk] at hchain
      obtain ⟨part, rest, hall, -, hholds, -, hrest⟩ := hchain.cons_inv
      have hlen := hplace c hk
      rw [hholds.len] at hlen
      rw [hholds.readRow]
      rcases Nat.lt_or_eq_of_le hlen with hin | hend
      · have hrow := List.getElem?_eq_getElem hin
        have hwhole' : all[at']? = some part[at'] := by
          rw [hall, List.getElem?_append_left hin, hrow]
        obtain ⟨hat, heq⟩ := List.getElem?_eq_some_iff.mp hwhole'
        refine .inr ⟨part[at'], all.drop (at' + 1), k, at' + 1, ?_, by rw [hrow]; rfl,
          start, all, hwhole, rfl, fun c' hc' => ?_⟩
        · rw [hrows, List.drop_eq_getElem_cons hat, heq]
        · obtain rfl := Option.some.inj (hk.symm.trans hc')
          rw [hholds.len]
          exact hin
      · rw [List.getElem?_eq_none hend.ge]
        refine ih (chunks.length - (k + 1)) (by omega) ⟨_, rest, hrest, ?_, fun _ _ => Nat.zero_le _⟩ rfl
        rw [hrows, hall, hend, List.drop_left, List.drop_zero]

theorem Stands.nexts {rows : List (Row C)} (h : Stands kinds chunks k at' rows) (n : ℕ) :
    ColumnLog.nexts chunks n k at' = some (rows.take n) := by
  induction n generalizing k at' rows with
  | zero => simp [ColumnLog.nexts]
  | succ n ih =>
    obtain ⟨rfl, hnext⟩ | ⟨row, rest, k', place, rfl, hnext, hstands⟩ := h.next
    · rw [ColumnLog.nexts, hnext]
      rfl
    · rw [ColumnLog.nexts, hnext, Option.bind_some]
      simp only [ih hstands, Option.map_some, List.take_succ_cons]

end WatchingZenoh.ColumnLog
