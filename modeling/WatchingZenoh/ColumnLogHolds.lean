import WatchingZenoh.ColumnLog

/-! What a log holds: a chain of chunks, of which the oldest rows are released. Every operation answers
as a plain list of the held rows does, and leaves a log of the rows it should. -/

namespace WatchingZenoh.ColumnLog

open Bisect

variable {C : ℕ} {c : Chunk C} {chunks : List (Chunk C)} {start at' k : ℕ} {row : Row C}

/-- What a log of these rows is: its chunks hold them behind rows that were released from the first. -/
structure ColumnLog.Holds (log : ColumnLog C) (start : ℕ) (lead rows : List (Row C)) : Prop where
  chain : Chain log.kinds start log.chunks (lead ++ rows)
  released : log.released = start + lead.length
  pushed : log.pushed = log.released + rows.length
  fits : ∀ row ∈ lead ++ rows, row.Fits
  first : ∀ c, log.chunks.head? = some c → lead.length < c.len

namespace ColumnLog

variable {log : ColumnLog C} {lead rows : List (Row C)} {hint index : ℕ} {first : Chunk C}

/-- How many held rows come before the point that a predicate of a column partitions them at. -/
def pointOf (rows : List (Row C)) (col : Fin C) (pred : ℕ → Bool) : ℕ :=
  (rows.takeWhile fun row => pred (row col)).length

/-- The chunks whose rows all stand before a row. -/
def ended (log : ColumnLog C) (r : ℕ) : ℕ :=
  (log.chunks.takeWhile fun c => c.start + c.len ≤ r).length

namespace Holds

theorem len (h : log.Holds start lead rows) : log.len = some rows.length := by
  rw [ColumnLog.len, h.pushed, if_neg (by omega), Nat.add_sub_cancel_left]

theorem locate (h : log.Holds start lead rows) (hint at' : ℕ) (hlow : log.released ≤ at')
    (hhigh : at' < log.pushed) :
    ∃ k c, log.locate hint at' = some (k, at' - c.start) ∧ log.chunks[k]? = some c ∧
      c.start ≤ at' ∧ at' < c.start + c.len := by
  have hreleased := h.released
  have hpushed := h.pushed
  rw [ColumnLog.locate, if_neg (by omega)]
  cases hguess : [hint, hint + 1, (hint + (2 ^ 64 - 1)) % 2 ^ 64].findSome? (log.guessed at') with
  | some found =>
    obtain ⟨guess, -, hfound⟩ := List.exists_of_findSome?_eq_some hguess
    rw [guessed, Option.bind_eq_bind, Option.bind_eq_some_iff] at hfound
    obtain ⟨c, hc, hfound⟩ := hfound
    split_ifs at hfound with hin
    rw [Option.some.injEq] at hfound
    exact ⟨guess, c, by rw [← hfound]; rfl, hc, hin⟩
  | none =>
    obtain ⟨k, c, hlen, hk, hin⟩ := h.chain.locate at' (by omega) (by simp; omega)
    refine ⟨k, c, ?_, hk, hin⟩
    simp only [Option.none_or, hlen, Nat.add_one_ne_zero, if_false, Nat.add_sub_cancel, hk,
      Option.map_some]

theorem locateIndex (h : log.Holds start lead rows) (hint : ℕ) (hi : index < rows.length) :
    ∃ k c before part after, log.locateIndex hint index =
        some (c, k, lead.length + index - before.length) ∧
      log.chunks[k]? = some c ∧ lead ++ rows = before ++ (part ++ after) ∧
      c.Holds log.kinds part ∧ before.length ≤ lead.length + index ∧
      lead.length + index < before.length + part.length ∧
      ∀ c' part', c'.start = c.start → c'.Holds log.kinds part' → part'.length = part.length →
        Chain log.kinds start (log.chunks.set k c') (before ++ (part' ++ after)) := by
  obtain ⟨k, c, hlocate, hk, hlow, hhigh⟩ := h.locate hint (log.released + index)
    (Nat.le_add_right _ _) (by rw [h.pushed]; omega)
  obtain ⟨before, part, after, hall, hstart, hholds, -, hset⟩ := h.chain.split hk
  have hreleased := h.released
  rw [hholds.len] at hhigh
  refine ⟨k, c, before, part, after, ?_, hk, hall, hholds, by omega, by omega, hset⟩
  rw [ColumnLog.locateIndex, hlocate]
  simp only [Option.bind_eq_bind, Option.bind_some, hk, Option.some.injEq, Prod.mk.injEq, true_and]
  omega

theorem locateIndex_none (h : log.Holds start lead rows) (hint : ℕ) (hi : rows.length ≤ index) :
    log.locateIndex hint index = none := by
  have hpushed := h.pushed
  rw [ColumnLog.locateIndex, ColumnLog.locate, if_pos (by omega)]
  rfl

theorem getElem?_part {before part after : List (Row C)} (index : ℕ)
    (hall : lead ++ rows = before ++ (part ++ after))
    (hlow : before.length ≤ lead.length + index)
    (hhigh : lead.length + index < before.length + part.length) :
    part[lead.length + index - before.length]? = rows[index]? := by
  have hleft : (lead ++ rows)[lead.length + index]? = rows[index]? := by
    rw [List.getElem?_append_right (Nat.le_add_right _ _), Nat.add_sub_cancel_left]
  rw [← hleft, hall, List.getElem?_append_right hlow, List.getElem?_append_left (by omega)]

theorem get (h : log.Holds start lead rows) (hint index : ℕ) : log.get hint index = some rows[index]? := by
  rcases Nat.lt_or_ge index rows.length with hi | hi
  · obtain ⟨k, c, before, part, after, hfound, -, hall, hholds, hlow, hhigh, -⟩ :=
      h.locateIndex hint hi
    rw [ColumnLog.get, hfound]
    simp only [hholds.readRow, getElem?_part index hall hlow hhigh]
  · rw [ColumnLog.get, h.locateIndex_none hint hi, List.getElem?_eq_none hi]

theorem column (h : log.Holds start lead rows) (hint index : ℕ) (col : Fin C) :
    log.column hint index col = some (rows[index]?.map (· col)) := by
  rcases Nat.lt_or_ge index rows.length with hi | hi
  · obtain ⟨k, c, before, part, after, hfound, -, hall, hholds, hlow, hhigh, -⟩ :=
      h.locateIndex hint hi
    have hrow := getElem?_part index hall hlow hhigh
    rw [List.getElem?_eq_getElem hi] at hrow ⊢
    rw [ColumnLog.column, hfound]
    simp only
    rw [if_pos (by rw [hholds.len]; omega), hholds.value hrow]
    rfl
  · rw [ColumnLog.column, h.locateIndex_none hint hi, List.getElem?_eq_none hi]
    rfl

theorem iterFrom (h : log.Holds start lead rows) (hint first n : ℕ) :
    log.iterFrom hint first n = some ((rows.drop first).take n) := by
  have hreleased := h.released
  have hpushed := h.pushed
  rw [ColumnLog.iterFrom]
  rcases Nat.lt_or_ge first rows.length with hfirst | hfirst
  · obtain ⟨k, c, hlocate, hk, hlow, hhigh⟩ := h.locate hint (log.released + first)
      (Nat.le_add_right _ _) (by omega)
    obtain ⟨before, rest, hall, hdrop⟩ := h.chain.drop k
    have hchain := hdrop
    rw [drop_eq_cons hk] at hchain
    obtain ⟨-, -, -, hstart, -⟩ := hchain.cons_inv
    rw [hlocate]
    refine Stands.nexts ⟨_, rest, hdrop, ?_, fun c' hc' => ?_⟩ n
    · have hleft : rows.drop first = (lead ++ rows).drop (lead.length + first) := by
        rw [List.drop_append]
        simp
      have hright : rest.drop (log.released + first - c.start) =
          (before ++ rest).drop (before.length + (log.released + first - c.start)) := by
        rw [List.drop_append]
        simp
      rw [hleft, hright, hall]
      congr 1
      omega
    · obtain rfl := Option.some.inj (hk.symm.trans hc')
      omega
  · have hnone : log.locate hint (log.released + first) = none := by
      rw [ColumnLog.locate, if_pos (by omega)]
    rw [hnone, List.drop_eq_nil_of_le hfirst]
    have hstands : Stands log.kinds log.chunks log.chunks.length 0 [] := by
      refine ⟨0, [], ?_, rfl, fun _ _ => Nat.zero_le _⟩
      rw [List.drop_eq_nil_of_le le_rfl]
      exact .nil 0
    exact hstands.nexts n

theorem set (h : log.Holds start lead rows) (hint index : ℕ) (hrow : row.Fits) :
    ∃ log', log.set hint index row = some (decide (index < rows.length), log') ∧
      log'.Holds start lead (rows.set index row) := by
  rcases Nat.lt_or_ge index rows.length with hi | hi
  · obtain ⟨k, c, before, part, after, hfound, hk, hall, hholds, hlow, hhigh, hset⟩ :=
      h.locateIndex hint hi
    have hparts : ∀ row ∈ part, row.Fits := fun row hrow => h.fits row (by rw [hall]; simp [hrow])
    obtain ⟨c', hrun, hholds', hstart'⟩ := hholds.set hparts hrow
      (i := lead.length + index - before.length) (by omega)
    have hrows : lead ++ rows.set index row =
        before ++ (part.set (lead.length + index - before.length) row ++ after) := by
      have hleft : lead ++ rows.set index row = (lead ++ rows).set (lead.length + index) row := by
        rw [List.set_append_right _ _ (Nat.le_add_right _ _), Nat.add_sub_cancel_left]
      rw [hleft, hall, List.set_append_right _ _ hlow, List.set_append_left _ _ (by omega)]
    refine ⟨{ log with chunks := log.chunks.set k c' }, ?_, ⟨?_, h.released, ?_, ?_, ?_⟩⟩
    · rw [ColumnLog.set, hfound]
      simp only [hrun, Option.map_some, hi, decide_true]
    · rw [hrows]
      exact hset c' _ hstart' hholds' (List.length_set ..)
    · rw [List.length_set]
      exact h.pushed
    · intro row' hrow'
      rw [List.mem_append] at hrow'
      rcases hrow' with hlead | hrow'
      · exact h.fits row' (List.mem_append_left _ hlead)
      · rcases List.mem_or_eq_of_mem_set hrow' with hold | rfl
        · exact h.fits row' (List.mem_append_right _ hold)
        · exact hrow
    · intro first hfirst
      rw [List.head?_eq_getElem?] at hfirst
      rcases eq_or_ne k 0 with rfl | hne
      · rw [List.getElem?_set_self (List.getElem?_eq_some_iff.mp hk).1, Option.some.injEq] at hfirst
        have hlead := h.first c (by rw [List.head?_eq_getElem?, hk])
        rw [← hfirst, hholds'.len, List.length_set, ← hholds.len]
        exact hlead
      · rw [List.getElem?_set_ne hne, ← List.head?_eq_getElem?] at hfirst
        exact h.first first hfirst
  · refine ⟨log, ?_, by rwa [List.set_eq_of_length_le hi]⟩
    rw [ColumnLog.set, h.locateIndex_none hint hi]
    simp [hi]

theorem concat (h : log.Holds start lead rows) (hrow : row.Fits)
    (hchain : Chain log.kinds start chunks (lead ++ (rows ++ [row])))
    (hfirst : ∀ c, chunks.head? = some c → lead.length < c.len) :
    ColumnLog.Holds { log with chunks := chunks, pushed := log.pushed + 1 } start lead
      (rows ++ [row]) := by
  refine ⟨hchain, h.released, ?_, fun row' hrow' => ?_, hfirst⟩
  · rw [h.pushed, List.length_append, List.length_singleton, Nat.add_assoc]
  · rw [← List.append_assoc, List.mem_append, List.mem_singleton] at hrow'
    rcases hrow' with hold | rfl
    · exact h.fits row' hold
    · exact hrow

theorem begun (h : log.Holds start lead rows) (hrow : row.Fits) (cap : ℕ)
    (hchain : Chain log.kinds start chunks (lead ++ rows))
    (hfirst : ∀ c, chunks.head? = some c → lead.length < c.len) :
    (log.begun chunks row cap).Holds start lead (rows ++ [row]) := by
  have hpushed := h.pushed
  have hreleased := h.released
  have hnew : (Chunk.fromRows log.pushed log.kinds [row] cap).Holds log.kinds [row] :=
    Chunk.holds_fromRows _ _ _ (by simpa using hrow)
  refine h.concat hrow ?_ ?_
  · rw [← List.append_assoc]
    refine hchain.append (.singleton ?_ hnew (by simp))
    rw [List.length_append]
    exact hpushed.trans (by omega)
  · intro c hc
    cases chunks with
    | nil =>
      obtain ⟨rfl, -⟩ := List.append_eq_nil_iff.mp hchain.eq_nil
      obtain rfl : Chunk.fromRows log.pushed log.kinds [row] cap = c := by simpa using hc
      exact Nat.zero_lt_one
    | cons c₀ chunks => exact hfirst c (by simpa using hc)

theorem pushBack (h : log.Holds start lead rows) (hrow : row.Fits) :
    ∃ log', log.pushBack row = some log' ∧ log'.Holds start lead (rows ++ [row]) := by
  rw [ColumnLog.pushBack]
  cases hlast : log.chunks.getLast? with
  | none => exact ⟨_, rfl, h.begun hrow _ h.chain h.first⟩
  | some last =>
    obtain ⟨init, hinit⟩ := List.getLast?_eq_some_iff.mp hlast
    have hchain := h.chain
    rw [hinit] at hchain
    obtain ⟨before, part, hall, hbefore, hstart, hholds, hne⟩ := hchain.concat_inv
    have hhead : ∀ last' : Chunk C, last.len ≤ last'.len →
        ∀ c, (init ++ [last']).head? = some c → lead.length < c.len := by
      intro last' hlen c hc
      have hfirst := h.first
      rw [hinit] at hfirst
      cases init with
      | nil =>
        obtain rfl : last' = c := by simpa using hc
        exact (hfirst last rfl).trans_le hlen
      | cons c₀ init => exact hfirst c (by simpa using hc)
    simp only [hinit, List.dropLast_concat]
    split_ifs with htakes hfull
    · obtain ⟨last', hrun, hholds', hstart'⟩ := hholds.append hrow htakes
      refine ⟨_, by rw [hrun]; rfl, h.concat hrow ?_ (hhead last' ?_)⟩
      · rw [← List.append_assoc, hall, List.append_assoc]
        exact hbefore.append (.singleton (hstart'.trans hstart) hholds' (by simp))
      · rw [hholds'.len, hholds.len, List.length_append]
        exact Nat.le_add_right _ _
    · rw [← hinit]
      exact ⟨_, rfl, h.begun hrow _ h.chain h.first⟩
    · refine ⟨_, rfl, h.begun hrow _ ?_ (hhead last.shrinkToFit le_rfl)⟩
      rw [hall]
      refine hbefore.append (.singleton hstart ?_ hne)
      exact ⟨hholds.len, le_rfl, hholds.base, hholds.plain, hholds.width, hholds.distance,
        hholds.layout, hholds.bytes⟩

theorem popFront (h : log.Holds start lead rows) :
    ∃ log' start' lead', log.popFront = some (rows.head?, log') ∧ log'.Holds start' lead' rows.tail := by
  have hchain := h.chain
  have hfirst := h.first
  have hreleased := h.released
  have hpushed := h.pushed
  cases hchunks : log.chunks with
  | nil =>
    rw [hchunks] at hchain
    obtain ⟨rfl, rfl⟩ := List.append_eq_nil_iff.mp hchain.eq_nil
    exact ⟨log, start, [], by simp [ColumnLog.popFront, hchunks], h⟩
  | cons first chunks =>
    rw [hchunks] at hchain hfirst
    obtain ⟨part, rest, hall, hstart, hholds, hne, hrest⟩ := hchain.cons_inv
    have hlead : lead.length < part.length := by rw [← hholds.len]; exact hfirst first rfl
    have hlens := congrArg List.length hall
    simp only [List.length_append] at hlens
    cases rows with
    | nil => simp at hlens; omega
    | cons row rows =>
      have hrow : part[lead.length]? = some row := by
        have hat : (lead ++ row :: rows)[lead.length]? = some row := by simp
        rwa [hall, List.getElem?_append_left hlead] at hat
      have hpop : log.popFront = some (some row, log.advance first) := by
        rw [ColumnLog.popFront, hchunks]
        simp only [List.head?_cons]
        rw [if_neg (by omega), hholds.readRow, hreleased, hstart, Nat.add_sub_cancel_left, hrow]
        rfl
      have hfits : ∀ row' ∈ rows, row'.Fits := fun row' hrow' => h.fits row' (by simp [hrow'])
      rw [hpop, List.head?_cons, List.tail_cons]
      by_cases hlast : first.start + first.len ≤ log.released + 1
      · have hwhole : lead ++ [row] = part ∧ rows = rest := by
          rw [hholds.len] at hlast
          refine List.append_inj (by rw [← hall, List.append_assoc]; rfl) ?_
          simp
          omega
        refine ⟨_, start + part.length, [], rfl, ⟨?_, ?_, ?_, ?_, ?_⟩⟩
        · simp only [ColumnLog.advance, if_pos hlast, hchunks, List.tail_cons, List.nil_append,
            hwhole.2]
          exact hrest
        · rw [hholds.len] at hlast
          simp only [ColumnLog.advance, List.length_nil]
          omega
        · simp only [ColumnLog.advance]
          simp at hpushed
          omega
        · simpa using hfits
        · intro c hc
          simp only [ColumnLog.advance, if_pos hlast, hchunks, List.tail_cons] at hc
          cases hrest with
          | nil => simp at hc
          | cons hstart' holds' hne' =>
            obtain rfl := Option.some.inj hc
            rw [holds'.len]
            exact List.length_pos_iff.mpr hne'
      · refine ⟨_, start, lead ++ [row], rfl, ⟨?_, ?_, ?_, ?_, ?_⟩⟩
        · simp only [ColumnLog.advance, if_neg hlast]
          simpa using h.chain
        · simp only [ColumnLog.advance, List.length_append, List.length_singleton]
          omega
        · simp only [ColumnLog.advance]
          simp at hpushed
          omega
        · simpa using h.fits
        · intro c hc
          simp only [ColumnLog.advance, if_neg hlast, hchunks] at hc
          obtain rfl := Option.some.inj hc
          simp only [List.length_append, List.length_singleton]
          omega

theorem first_start (h : log.Holds start lead rows) (hk : log.chunks[0]? = some c) :
    c.start = start := by
  have hchain := h.chain
  cases hchunks : log.chunks with
  | nil => simp [hchunks] at hk
  | cons first chunks =>
    rw [hchunks] at hchain hk
    obtain rfl : first = c := by simpa using hk
    obtain ⟨-, -, -, hstart, -⟩ := hchain.cons_inv
    exact hstart

theorem later (h : log.Holds start lead rows) (hk : log.chunks[k]? = some c) (hne : k ≠ 0) :
    log.released ≤ c.start := by
  have hchain := h.chain
  have hfirst := h.first
  have hreleased := h.released
  obtain ⟨k, rfl⟩ := Nat.exists_eq_succ_of_ne_zero hne
  cases hchunks : log.chunks with
  | nil => simp [hchunks] at hk
  | cons first chunks =>
    rw [hchunks] at hchain hfirst hk
    obtain ⟨part, rest, -, -, hholds, -, hrest⟩ := hchain.cons_inv
    obtain ⟨before, -, -, -, hstart, -⟩ := hrest.split (k := k) (by simpa using hk)
    have hlead := hfirst first rfl
    rw [hholds.len] at hlead
    omega

theorem last_held (h : log.Holds start lead rows) (hk : log.chunks[k]? = some c) :
    log.released ≤ c.start + (c.len - 1) := by
  rcases eq_or_ne k 0 with rfl | hne
  · have hlead := h.first c (by rw [List.head?_eq_getElem?, hk])
    have hreleased := h.released
    have hstart := h.first_start hk
    omega
  · exact (h.later hk hne).trans (Nat.le_add_right _ _)

theorem ask (h : log.Holds start lead rows) {col : Fin C} {pred : ℕ → Bool} {i : ℕ}
    (hpart : ChunkLog.Partitioned (fun row : Row C => pred (row col)) rows)
    (hk : log.chunks[k]? = some c) (hi : i < c.len) (hheld : log.released ≤ c.start + i) :
    (c.value col i).map pred =
      some (decide (c.start + i < log.released + pointOf rows col pred)) := by
  have hreleased := h.released
  obtain ⟨before, part, after, hall, hstart, hholds, -, -⟩ := h.chain.split hk
  rw [hholds.len] at hi
  have hget : part[i]? = rows[c.start + i - log.released]? := by
    have hplace := getElem?_part (c.start + i - log.released) hall (by omega) (by omega)
    rw [← hplace]
    congr 1
    omega
  have hrow := List.getElem?_eq_getElem hi
  have hiff : pred (part[i] col) = true ↔ c.start + i - log.released < pointOf rows col pred :=
    hpart.at_iff (hget.symm.trans hrow)
  rw [hholds.value hrow, Option.map_some, Option.some.injEq, Bool.eq_iff_iff, decide_eq_true_eq, hiff]
  omega

theorem bisect_chunks (h : log.Holds start lead rows) {col : Fin C} {pred : ℕ → Bool}
    (hpart : ChunkLog.Partitioned (fun row : Row C => pred (row col)) rows) :
    bisect (log.askLast col pred) 0 log.chunks.length =
      some (log.ended (log.released + pointOf rows col pred)) := by
  refine bisect_eq (Nat.zero_le _) (List.takeWhile_prefix _).length_le fun i _ hi => ?_
  have hk := List.getElem?_eq_getElem hi
  obtain ⟨before, part, after, -, -, hholds, hne, -⟩ := h.chain.split hk
  have hpos : 0 < log.chunks[i].len := by
    rw [hholds.len]
    exact List.length_pos_iff.mpr hne
  have hends : log.chunks[i].start + log.chunks[i].len ≤ log.released + pointOf rows col pred ↔
      i < log.ended (log.released + pointOf rows col pred) := h.chain.ends_iff _ hk
  rw [askLast, hk]
  simp only [Option.bind_eq_bind, Option.bind_some]
  rw [if_neg (by omega), h.ask hpart hk (by omega) (h.last_held hk)]
  congr 1
  rw [Bool.eq_iff_iff, decide_eq_true_eq, decide_eq_true_eq, ← hends]
  omega

theorem pushed_le (h : log.Holds start lead rows) {r : ℕ} (hr : log.released ≤ r)
    (hk : log.chunks[log.ended r]? = none) : log.pushed ≤ r := by
  have hreleased := h.released
  have hpushed := h.pushed
  by_contra hbelow
  obtain ⟨k, c, -, hc, -, hin⟩ := h.chain.locate r (by omega) (by simp; omega)
  have hlt := (List.getElem?_eq_some_iff.mp hc).1
  have hends := (h.chain.ends_iff r hc).mpr (hlt.trans_le (List.getElem?_eq_none_iff.mp hk))
  omega

theorem partitionPointByColumn (h : log.Holds start lead rows) (col : Fin C) (pred : ℕ → Bool)
    (hpart : ChunkLog.Partitioned (fun row : Row C => pred (row col)) rows) :
    log.partitionPointByColumn col pred = some (pointOf rows col pred) := by
  have hreleased := h.released
  have hpushed := h.pushed
  have hle : pointOf rows col pred ≤ rows.length := (List.takeWhile_prefix _).length_le
  rw [ColumnLog.partitionPointByColumn, h.bisect_chunks hpart]
  simp only [Option.bind_eq_bind, Option.bind_some]
  cases hk : log.chunks[log.ended (log.released + pointOf rows col pred)]? with
  | none =>
    have hall := h.pushed_le (Nat.le_add_right _ _) hk
    simp only [h.len, Option.some.injEq]
    omega
  | some c =>
    have hstart := h.chain.start_le (r := log.released + pointOf rows col pred) (by omega) hk
    have hends := h.chain.ends_iff (log.released + pointOf rows col pred) hk
    have hnot : ¬ c.start + c.len ≤ log.released + pointOf rows col pred :=
      fun hin => absurd (hends.mp hin) (lt_irrefl _)
    have hbegin : log.ended (log.released + pointOf rows col pred) = 0 → c.start ≤ log.released :=
      fun hzero => by
        rw [hzero] at hk
        have hfirst := h.first_start hk
        omega
    simp only
    rw [if_neg (fun hpanic => absurd (hbegin hpanic.1) (by omega))]
    have hinner : bisect (fun mid => (c.value col mid).map pred)
        (if log.ended (log.released + pointOf rows col pred) = 0 then log.released - c.start else 0)
        c.len = some (log.released + pointOf rows col pred - c.start) := by
      refine bisect_eq (by split_ifs <;> omega) (by omega) fun i hi hlen => ?_
      have hheld : log.released ≤ c.start + i := by
        split_ifs at hi with hzero
        · omega
        · exact (h.later hk hzero).trans (Nat.le_add_right _ _)
      rw [h.ask hpart hk hlen hheld]
      congr 1
      rw [Bool.eq_iff_iff, decide_eq_true_eq, decide_eq_true_eq]
      omega
    rw [hinner]
    rw [Option.bind_some, if_neg (by omega), Option.some.injEq]
    omega

end Holds

end ColumnLog

end WatchingZenoh.ColumnLog
