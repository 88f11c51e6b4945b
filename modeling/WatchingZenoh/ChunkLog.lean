import Mathlib

/-! An append-only log in chunks of a fixed number of items, released from the front. Every chunk but
the first and the last is full, so that a position is found by a division, and every chunk holds its
items as one run of its ring buffer. -/

namespace WatchingZenoh

def chunkItems : ℕ := 1024

/-- A ring buffer: its items start at `head` and wrap at `cap`. -/
structure Deque (T : Type) where
  cap : ℕ
  head : ℕ
  items : List T

namespace Deque

variable {T : Type}

def withCapacity (cap : ℕ) : Deque T := ⟨cap, 0, []⟩

/-- The two slices of the buffer that the items lie in. -/
def asSlices (d : Deque T) : List T × List T :=
  (d.items.take (d.cap - d.head), d.items.drop (d.cap - d.head))

/-- A buffer of twice the capacity; of items that wrap, the shorter part is moved. -/
def grow (d : Deque T) : Deque T :=
  let cap := max (2 * d.cap) 4
  let headLen := d.cap - d.head
  let tailLen := d.items.length - headLen
  if d.items.length ≤ headLen then ⟨cap, d.head, d.items⟩
  else if tailLen < headLen ∧ tailLen ≤ cap - d.cap then ⟨cap, d.head, d.items⟩
  else ⟨cap, cap - headLen, d.items⟩

def pushBack (d : Deque T) (item : T) : Deque T :=
  let d := if d.items.length = d.cap then d.grow else d
  { d with items := d.items ++ [item] }

def popFront (d : Deque T) : Deque T × Option T :=
  match d.items with
  | [] => (d, none)
  | item :: rest => (⟨d.cap, if d.head + 1 = d.cap then 0 else d.head + 1, rest⟩, some item)

def makeContiguous (d : Deque T) : Deque T := { d with head := 0 }

def Straight (d : Deque T) : Prop := d.items.length ≤ d.cap - d.head

theorem asSlices_of_straight {d : Deque T} (h : d.Straight) : d.asSlices = (d.items, []) := by
  rw [asSlices, List.take_of_length_le h, List.drop_of_length_le h]

@[simp] theorem items_grow (d : Deque T) : d.grow.items = d.items := by
  simp only [grow]
  split_ifs <;> rfl

@[simp] theorem items_pushBack (d : Deque T) (item : T) :
    (d.pushBack item).items = d.items ++ [item] := by
  simp only [pushBack]
  split_ifs <;> simp

theorem length_lt_cap_grow {d : Deque T} (h : d.items.length = d.cap) :
    d.items.length < d.grow.cap := by
  simp only [grow]
  split_ifs <;> simp only <;> omega

theorem length_pushBack_le {d : Deque T} (h : d.items.length ≤ d.cap) (item : T) :
    (d.pushBack item).items.length ≤ (d.pushBack item).cap := by
  simp only [pushBack]
  split_ifs with hfull
  · have hlt := length_lt_cap_grow hfull
    simp only [List.length_append, items_grow, List.length_singleton]
    omega
  · simp only [List.length_append, List.length_singleton]
    omega

theorem Straight.popFront {d : Deque T} (h : d.Straight) : d.popFront.1.Straight := by
  rw [Deque.popFront, Straight]
  rw [Straight] at h
  cases hitems : d.items with
  | nil => simp [hitems]
  | cons item rest =>
    rw [hitems, List.length_cons] at h
    simp only
    split_ifs <;> omega

end Deque

/-- Whatever of a chunk wraps is moved, so that it is one run again. -/
def straighten {T : Type} (chunk : Deque T) : Deque T :=
  if chunk.asSlices.2 = [] then chunk else chunk.makeContiguous

/-- The items of a chunk, which lie in one run. -/
def Deque.run {T : Type} (chunk : Deque T) : List T := chunk.asSlices.1

structure ChunkLog (T : Type) where
  chunks : List (Deque T)
  len : ℕ

namespace ChunkLog

variable {T : Type}

def new : ChunkLog T := ⟨[], 0⟩

def pushBack (log : ChunkLog T) (item : T) : ChunkLog T :=
  let chunks := log.chunks.length
  let started := (if chunks = 0 then Deque.withCapacity 0 else Deque.withCapacity chunkItems)
  let chunks :=
    match log.chunks.getLast? with
    | some last =>
      if last.items.length < chunkItems then
        let last := last.pushBack item
        log.chunks.dropLast ++ [if chunks = 1 then straighten last else last]
      else log.chunks ++ [started.pushBack item]
    | none => log.chunks ++ [started.pushBack item]
  ⟨chunks, log.len + 1⟩

def popFront (log : ChunkLog T) : ChunkLog T × Option T :=
  match log.chunks with
  | [] => (log, none)
  | first :: rest =>
    let popped := first.popFront
    let chunks := if popped.1.items = [] then rest else straighten popped.1 :: rest
    (⟨chunks, if popped.2.isSome then log.len - 1 else log.len⟩, popped.2)

/-- The chunk of an item and its place there. -/
def locate (log : ChunkLog T) (index : ℕ) : Option (ℕ × ℕ) :=
  if log.len ≤ index then none
  else
    log.chunks.head?.map fun chunk =>
      let first := chunk.items.length
      if index < first then (0, index)
      else (1 + (index - first) / chunkItems, (index - first) % chunkItems)

def get (log : ChunkLog T) (index : ℕ) : Option T := do
  let p ← log.locate index
  let chunk ← log.chunks[p.1]?
  chunk.run[p.2]?

/-- A write through `get_mut`; an index past the end writes nothing. -/
def setAt (log : ChunkLog T) (index : ℕ) (item : T) : ChunkLog T :=
  match log.locate index with
  | none => log
  | some p => { log with chunks := log.chunks.modify p.1 fun chunk =>
      { chunk with items := if p.2 < chunk.run.length then chunk.items.set p.2 item else chunk.items } }

def front (log : ChunkLog T) : Option T := log.get 0

def back (log : ChunkLog T) : Option T := if log.len = 0 then none else log.get (log.len - 1)

def partitionLoop (log : ChunkLog T) (pred : T → Bool) (low high : ℕ) : ℕ :=
  if low < high then
    let mid := low + (high - low) / 2
    if (log.get mid).any pred then partitionLoop log pred (mid + 1) high
    else partitionLoop log pred low mid
  else low
termination_by high - low

def partitionPoint (log : ChunkLog T) (pred : T → Bool) : ℕ := log.partitionLoop pred 0 log.len

def items (log : ChunkLog T) : List T := log.chunks.flatMap Deque.items

/-- A chunk that was allocated whole and never released from. -/
def Fresh (chunk : Deque T) : Prop := chunk.head = 0 ∧ chunkItems ≤ chunk.cap

/-- The chunks behind the first: each is full but the last, and none was released from. -/
inductive Behind : List (Deque T) → Prop
  | nil : Behind []
  | last (chunk : Deque T) : Fresh chunk → chunk.items ≠ [] → chunk.items.length ≤ chunkItems →
      Behind [chunk]
  | full (chunk : Deque T) {rest : List (Deque T)} : Fresh chunk → chunk.items.length = chunkItems →
      Behind rest → Behind (chunk :: rest)

structure Laid (log : ChunkLog T) : Prop where
  first : ∀ chunk ∈ log.chunks.head?, chunk.Straight ∧ chunk.items ≠ [] ∧
    chunk.items.length ≤ chunkItems
  behind : Behind log.chunks.tail
  len : log.len = log.items.length

theorem Fresh.straight {chunk : Deque T} (h : Fresh chunk) (hlen : chunk.items.length ≤ chunkItems) :
    chunk.Straight := by
  rw [Deque.Straight, h.1]
  have := h.2
  omega

theorem Behind.chunk {rest : List (Deque T)} (h : Behind rest) :
    ∀ chunk ∈ rest, Fresh chunk ∧ chunk.items ≠ [] ∧ chunk.items.length ≤ chunkItems := by
  induction h with
  | nil => simp
  | last chunk hfresh hne hlen => simpa using ⟨hfresh, hne, hlen⟩
  | full chunk hfresh hlen _ ih =>
    have hne : chunk.items ≠ [] := by
      intro hnil
      simp [hnil, chunkItems] at hlen
    intro c hc
    rcases List.mem_cons.mp hc with rfl | hc
    · exact ⟨hfresh, hne, hlen.le⟩
    · exact ih c hc

theorem Behind.full_of_split {rest : List (Deque T)} (h : Behind rest) {pre post : List (Deque T)}
    {chunk : Deque T} (hsplit : rest = pre ++ chunk :: post) (hpost : post ≠ []) :
    chunk.items.length = chunkItems := by
  induction h generalizing pre with
  | nil => simp at hsplit
  | last c _ _ _ =>
    cases pre with
    | nil =>
      obtain ⟨-, hnil⟩ := List.cons.inj hsplit
      exact absurd hnil.symm hpost
    | cons d pre => simp at hsplit
  | full c _ hlen _ ih =>
    cases pre with
    | nil =>
      obtain ⟨rfl, -⟩ := List.cons.inj hsplit
      exact hlen
    | cons d pre => exact ih (List.cons.inj hsplit).2

theorem Behind.locate {rest : List (Deque T)} (h : Behind rest) {i : ℕ}
    (hi : i < (rest.flatMap Deque.items).length) :
    ∃ pre chunk post, rest = pre ++ chunk :: post ∧ pre.length = i / chunkItems ∧
      i = (pre.flatMap Deque.items).length + i % chunkItems ∧ i % chunkItems < chunk.items.length := by
  have hpos : 0 < chunkItems := by decide
  induction h generalizing i with
  | nil => simp at hi
  | last chunk hfresh hne hlen =>
    rw [List.flatMap_singleton] at hi
    have hlt : i < chunkItems := by omega
    refine ⟨[], chunk, [], rfl, ?_, ?_, ?_⟩
    · rw [Nat.div_eq_of_lt hlt, List.length_nil]
    · rw [Nat.mod_eq_of_lt hlt]
      simp
    · rw [Nat.mod_eq_of_lt hlt]
      exact hi
  | @full chunk rest hfresh hlen _ ih =>
    rw [List.flatMap_cons, List.length_append, hlen] at hi
    by_cases hlt : i < chunkItems
    · refine ⟨[], chunk, rest, rfl, ?_, ?_, ?_⟩
      · rw [Nat.div_eq_of_lt hlt, List.length_nil]
      · rw [Nat.mod_eq_of_lt hlt]
        simp
      · rw [Nat.mod_eq_of_lt hlt, hlen]
        exact hlt
    · obtain ⟨j, rfl⟩ : ∃ j, i = j + chunkItems := ⟨i - chunkItems, by omega⟩
      obtain ⟨pre, c, post, rfl, hcount, hat, hin⟩ := ih (by omega : j < _)
      refine ⟨chunk :: pre, c, post, rfl, ?_, ?_, ?_⟩
      · rw [Nat.add_div_right j hpos, List.length_cons, hcount]
      · rw [Nat.add_mod_right, List.flatMap_cons, List.length_append, hlen]
        omega
      · rw [Nat.add_mod_right]
        exact hin

/-- An item that is held: its chunk, and its place there. -/
structure At (log : ChunkLog T) (index : ℕ) (pre : List (Deque T)) (chunk : Deque T)
    (post : List (Deque T)) (place : ℕ) : Prop where
  chunks : log.chunks = pre ++ chunk :: post
  located : log.locate index = some (pre.length, place)
  index : index = (pre.flatMap Deque.items).length + place
  inside : place < chunk.items.length
  run : chunk.run = chunk.items
  full : ∀ c ∈ post.dropLast, c.run = c.items ∧ c.items.length = chunkItems
  last : ∀ c ∈ post.getLast?, c.run = c.items

theorem run_of_straight {chunk : Deque T} (h : chunk.Straight) : chunk.run = chunk.items := by
  rw [Deque.run, Deque.asSlices_of_straight h]

theorem Behind.run {rest : List (Deque T)} (h : Behind rest) : ∀ c ∈ rest, c.run = c.items := by
  intro c hc
  obtain ⟨hfresh, -, hlen⟩ := h.chunk c hc
  exact run_of_straight (hfresh.straight hlen)

theorem Behind.inner {rest pre post : List (Deque T)} (h : Behind rest) (hsplit : rest = pre ++ post) :
    ∀ c ∈ post.dropLast, c.run = c.items ∧ c.items.length = chunkItems := by
  intro c hc
  obtain ⟨before, after, hpost⟩ := List.append_of_mem hc
  have hne : post ≠ [] := by
    rintro rfl
    simp at hc
  have hwhole : post = before ++ c :: (after ++ [post.getLast hne]) := by
    conv_lhs => rw [← List.dropLast_append_getLast hne, hpost]
    simp
  have hplace : rest = (pre ++ before) ++ c :: (after ++ [post.getLast hne]) := by
    rw [hsplit]
    conv_lhs => rw [hwhole]
    simp
  refine ⟨h.run c ?_, h.full_of_split hplace (by simp)⟩
  rw [hplace]
  simp

theorem Laid.exists_at {log : ChunkLog T} (h : log.Laid) {index : ℕ} (hi : index < log.items.length) :
    ∃ pre chunk post place, log.At index pre chunk post place := by
  have hlen := h.len
  have hin : ¬ log.len ≤ index := by omega
  cases hchunks : log.chunks with
  | nil => simp [items, hchunks] at hi
  | cons first rest =>
    obtain ⟨hstraight, -, -⟩ := h.first first (by simp [hchunks])
    have hbehind := h.behind
    rw [hchunks, List.tail_cons] at hbehind
    have hlocate : log.locate index = some (if index < first.items.length then (0, index)
        else (1 + (index - first.items.length) / chunkItems,
          (index - first.items.length) % chunkItems)) := by
      simp [ChunkLog.locate, hin, hchunks]
    rw [items, hchunks, List.flatMap_cons, List.length_append] at hi
    by_cases hfirst : index < first.items.length
    · rw [if_pos hfirst] at hlocate
      exact ⟨[], first, rest, index, hchunks, hlocate, by simp, hfirst, run_of_straight hstraight,
        hbehind.inner (List.nil_append rest).symm, fun c hc => hbehind.run c (List.mem_of_getLast? hc)⟩
    · rw [if_neg hfirst] at hlocate
      obtain ⟨pre, chunk, post, rfl, hcount, hat, hinside⟩ :=
        hbehind.locate (i := index - first.items.length) (by omega)
      have hsplit : pre ++ chunk :: post = (pre ++ [chunk]) ++ post := by simp
      refine ⟨first :: pre, chunk, post, _, hchunks, ?_, ?_, hinside, hbehind.run chunk (by simp),
        hbehind.inner hsplit, fun c hc => hbehind.run c ?_⟩
      · rw [hlocate, List.length_cons, hcount, Nat.add_comm 1]
      · rw [List.flatMap_cons, List.length_append]
        omega
      · exact List.mem_append_right _ (List.mem_cons_of_mem _ (List.mem_of_getLast? hc))

theorem At.items_eq {log : ChunkLog T} {index place : ℕ} {pre post : List (Deque T)} {chunk : Deque T}
    (h : log.At index pre chunk post place) :
    log.items = pre.flatMap Deque.items ++ (chunk.items ++ post.flatMap Deque.items) := by
  rw [items, h.chunks, List.flatMap_append, List.flatMap_cons]

theorem Laid.get_eq {log : ChunkLog T} (h : log.Laid) (i : ℕ) : log.get i = log.items[i]? := by
  by_cases hi : i < log.items.length
  · obtain ⟨pre, chunk, post, place, hat⟩ := h.exists_at hi
    have hinside := hat.inside
    have hindex := hat.index
    rw [get, hat.located, hat.items_eq]
    simp only [Option.bind_eq_bind, Option.bind_some, hat.chunks]
    rw [List.getElem?_append_right le_rfl, Nat.sub_self, List.getElem?_cons_zero, Option.bind_some,
      hat.run, List.getElem?_append_right (by omega), List.getElem?_append_left (by omega)]
    congr 1
    omega
  · have hnone : log.locate i = none := by
      rw [locate, if_pos (by rw [h.len]; omega)]
    rw [get, hnone, List.getElem?_eq_none (by omega)]
    rfl

theorem straight_straighten {chunk : Deque T} (h : chunk.items.length ≤ chunk.cap) :
    (straighten chunk).Straight := by
  rw [straighten]
  split_ifs with hwrapped
  · rw [Deque.asSlices, List.drop_eq_nil_iff] at hwrapped
    exact hwrapped
  · rw [Deque.Straight, Deque.makeContiguous]
    exact h

@[simp] theorem items_straighten (chunk : Deque T) : (straighten chunk).items = chunk.items := by
  rw [straighten]
  split_ifs <;> rfl

theorem Fresh.pushBack {chunk : Deque T} (h : Fresh chunk) (hlen : chunk.items.length < chunkItems)
    (item : T) : Fresh (chunk.pushBack item) := by
  have hcap := h.2
  rw [Deque.pushBack, if_neg (by omega)]
  exact h

theorem fresh_started (item : T) : Fresh ((Deque.withCapacity chunkItems).pushBack item) :=
  Fresh.pushBack ⟨rfl, le_rfl⟩ (by simp [Deque.withCapacity, chunkItems]) item

theorem Behind.push {init : List (Deque T)} {last : Deque T} (h : Behind (init ++ [last]))
    (hlen : last.items.length < chunkItems) (item : T) : Behind (init ++ [last.pushBack item]) := by
  obtain ⟨hfresh, -, -⟩ := h.chunk last (by simp)
  have hlast : Behind [last.pushBack item] := by
    refine .last _ (hfresh.pushBack hlen item) (by simp) ?_
    rw [Deque.items_pushBack, List.length_append, List.length_singleton]
    omega
  induction init with
  | nil => exact hlast
  | cons chunk init ih =>
    rw [List.cons_append] at h ⊢
    generalize hrest : init ++ [last] = rest at h
    cases h with
    | last _ _ _ => simp at hrest
    | full _ hfull hrun hbehind =>
      rw [← hrest] at hbehind
      exact .full chunk hfull hrun (ih hbehind)

theorem Behind.start {rest : List (Deque T)} (h : Behind rest)
    (hfull : ∀ last ∈ rest.getLast?, ¬ last.items.length < chunkItems) (item : T) :
    Behind (rest ++ [(Deque.withCapacity chunkItems).pushBack item]) := by
  have hnew : Behind [(Deque.withCapacity chunkItems).pushBack item] :=
    .last _ (fresh_started item) (by simp) (by simp [Deque.withCapacity, chunkItems])
  induction h with
  | nil => exact hnew
  | last chunk hfresh hne hlen =>
    have hroom := hfull chunk (by simp)
    exact .full chunk hfresh (by omega) hnew
  | @full chunk rest hfresh hlen hbehind ih =>
    refine .full chunk hfresh hlen (ih fun last hlast => hfull last ?_)
    rw [List.getLast?_cons, Option.mem_def.mp hlast]
    simp

theorem laid_new : Laid (new : ChunkLog T) := ⟨by simp [new], .nil, rfl⟩

theorem Laid.pushBack {log : ChunkLog T} (h : log.Laid) (item : T) :
    (log.pushBack item).Laid ∧ (log.pushBack item).items = log.items ++ [item] := by
  have hitems : (log.pushBack item).items = log.items ++ [item] → (log.pushBack item).len =
      (log.pushBack item).items.length := fun heq => by
    rw [heq, List.length_append, ← h.len]
    rfl
  suffices hall : (log.pushBack item).items = log.items ++ [item] ∧
      (∀ chunk ∈ (log.pushBack item).chunks.head?, chunk.Straight ∧ chunk.items ≠ [] ∧
        chunk.items.length ≤ chunkItems) ∧ Behind (log.pushBack item).chunks.tail from
    ⟨⟨hall.2.1, hall.2.2, hitems hall.1⟩, hall.1⟩
  rcases List.eq_nil_or_concat log.chunks with hnil | ⟨init, last, hconcat⟩
  · have hchunks : (log.pushBack item).chunks = [(Deque.withCapacity 0).pushBack item] := by
      simp [ChunkLog.pushBack, hnil]
    rw [items, items, hchunks, hnil]
    refine ⟨by simp [Deque.withCapacity], fun chunk hchunk => ?_, .nil⟩
    have heq : (Deque.withCapacity 0).pushBack item = chunk := by simpa using hchunk
    subst heq
    simp [Deque.Straight, Deque.pushBack, Deque.withCapacity, Deque.grow, chunkItems]
  rw [List.concat_eq_append] at hconcat
  have hlast : log.chunks.getLast? = some last := by simp [hconcat]
  by_cases hroom : last.items.length < chunkItems
  · cases init with
    | nil =>
      have hchunks : (log.pushBack item).chunks = [straighten (last.pushBack item)] := by
        simp [ChunkLog.pushBack, hconcat, hroom]
      obtain ⟨hstraight, -, -⟩ := h.first last (by simp [hconcat])
      rw [items, items, hchunks, hconcat]
      refine ⟨by simp, fun chunk hchunk => ?_, .nil⟩
      have heq : straighten (last.pushBack item) = chunk := by simpa using hchunk
      subst heq
      refine ⟨straight_straighten (Deque.length_pushBack_le ?_ item), by simp, ?_⟩
      · rw [Deque.Straight] at hstraight
        omega
      · rw [items_straighten, Deque.items_pushBack, List.length_append, List.length_singleton]
        omega
    | cons first init =>
      have hchunks : (log.pushBack item).chunks = first :: (init ++ [last.pushBack item]) := by
        have hdrop : log.chunks.dropLast = first :: init := by rw [hconcat, List.dropLast_concat]
        have hmany : log.chunks.length ≠ 1 := by simp [hconcat]
        simp [ChunkLog.pushBack, hlast, hroom, hdrop, hmany]
      have hbehind := h.behind
      rw [hconcat] at hbehind
      rw [items, items, hchunks, hconcat]
      refine ⟨by simp, fun chunk hchunk => ?_, hbehind.push hroom item⟩
      exact h.first chunk (by simpa [hconcat] using hchunk)
  · have hone : log.chunks.length ≠ 0 := by simp [hconcat]
    have hchunks : (log.pushBack item).chunks =
        log.chunks ++ [(Deque.withCapacity chunkItems).pushBack item] := by
      simp [ChunkLog.pushBack, hlast, hroom, hone]
    rw [items, items, hchunks]
    refine ⟨by simp [Deque.withCapacity], fun chunk hchunk => ?_, ?_⟩
    · refine h.first chunk ?_
      rwa [List.head?_append_of_ne_nil _ (by simp [hconcat])] at hchunk
    · rw [List.tail_append_of_ne_nil (by simp [hconcat])]
      refine h.behind.start (fun c hc => ?_) item
      have hmem : c = last := by
        rw [hconcat] at hc
        cases init with
        | nil => simp at hc
        | cons first init => simpa using Eq.symm (Option.mem_def.mp hc)
      rw [hmem]
      exact hroom

theorem Laid.popFront {log : ChunkLog T} (h : log.Laid) :
    log.popFront.1.Laid ∧ log.popFront.1.items = log.items.tail ∧ log.popFront.2 = log.items.head? := by
  rw [ChunkLog.popFront]
  cases hchunks : log.chunks with
  | nil => exact ⟨h, by simp [items, hchunks], by simp [items, hchunks]⟩
  | cons first rest =>
    obtain ⟨hstraight, hne, hlen⟩ := h.first first (by simp [hchunks])
    obtain ⟨item, more, hitems⟩ := List.exists_cons_of_ne_nil hne
    have hbehind := h.behind
    have hcount := h.len
    rw [hchunks, List.tail_cons] at hbehind
    rw [items, hchunks, List.flatMap_cons, hitems] at hcount
    have hstraight' := hstraight.popFront
    have hpop : first.popFront.2 = some item := by simp [Deque.popFront, hitems]
    have hrest : first.popFront.1.items = more := by simp [Deque.popFront, hitems]
    have hcap : first.popFront.1.items.length ≤ first.popFront.1.cap := by
      rw [Deque.Straight] at hstraight'
      omega
    have hall : log.items = item :: (more ++ rest.flatMap Deque.items) := by
      rw [items, hchunks, List.flatMap_cons, hitems, List.cons_append]
    rw [hall]
    simp only [hpop, hrest, Option.isSome_some, if_true, List.tail_cons, List.head?_cons]
    rw [hitems, List.length_cons] at hlen
    rw [List.cons_append, List.length_cons, List.length_append] at hcount
    split_ifs with hempty
    · subst hempty
      refine ⟨⟨fun chunk hchunk => ?_, ?_, ?_⟩, by simp [items], trivial⟩
      · obtain ⟨hfresh, hne', hlen'⟩ := hbehind.chunk chunk (List.mem_of_mem_head? hchunk)
        exact ⟨hfresh.straight hlen', hne', hlen'⟩
      · cases hbehind with
        | nil => exact .nil
        | last _ _ _ _ => exact .nil
        | full _ _ _ hbehind' => exact hbehind'
      · simp only [items]
        simp only [List.length_nil] at hcount
        omega
    · refine ⟨⟨fun chunk hchunk => ?_, hbehind, ?_⟩, by simp [items, hrest], trivial⟩
      · have heq : straighten first.popFront.1 = chunk := by simpa using hchunk
        subst heq
        refine ⟨straight_straighten hcap, by simpa [hrest] using hempty, ?_⟩
        rw [items_straighten, hrest]
        omega
      · simp only [items, List.flatMap_cons, items_straighten, hrest, List.length_append]
        omega

theorem At.setAt {log : ChunkLog T} {index place : ℕ} {pre post : List (Deque T)} {chunk : Deque T}
    (h : log.At index pre chunk post place) (item : T) :
    (log.setAt index item).chunks =
      pre ++ { chunk with items := chunk.items.set place item } :: post := by
  have hinside : place < chunk.run.length := by
    rw [h.run]
    exact h.inside
  simp only [ChunkLog.setAt, h.located, h.chunks]
  rw [List.modify_eq_take_cons_drop (by simp), List.take_left]
  congr 1
  simp [hinside]

theorem Behind.replace {pre post : List (Deque T)} {chunk chunk' : Deque T}
    (h : Behind (pre ++ chunk :: post)) (hcap : chunk'.cap = chunk.cap)
    (hhead : chunk'.head = chunk.head) (hlen : chunk'.items.length = chunk.items.length) :
    Behind (pre ++ chunk' :: post) := by
  have hfresh : Fresh chunk → Fresh chunk' := fun hfresh => by
    rw [Fresh, hcap, hhead]
    exact hfresh
  have hne : chunk.items ≠ [] → chunk'.items ≠ [] := fun hne => by
    rw [← List.length_pos_iff] at hne ⊢
    omega
  induction pre with
  | nil =>
    rw [List.nil_append] at h ⊢
    cases h with
    | last _ hf hn hl => exact .last chunk' (hfresh hf) (hne hn) (by omega)
    | full _ hf hl hrest => exact .full chunk' (hfresh hf) (by omega) hrest
  | cons first pre ih =>
    rw [List.cons_append] at h ⊢
    generalize hrest : pre ++ chunk :: post = rest at h
    cases h with
    | last _ _ _ _ => simp at hrest
    | full _ hf hl hbehind =>
      rw [← hrest] at hbehind
      exact .full first hf hl (ih hbehind)

theorem Laid.setAt {log : ChunkLog T} (h : log.Laid) (index : ℕ) (item : T) :
    (log.setAt index item).Laid ∧ (log.setAt index item).items = log.items.set index item := by
  by_cases hi : index < log.items.length
  · obtain ⟨pre, chunk, post, place, hat⟩ := h.exists_at hi
    have hchunks := hat.setAt item
    have hinside := hat.inside
    have hindex := hat.index
    have hitems : (log.setAt index item).items = log.items.set index item := by
      have hplace : index - (pre.flatMap Deque.items).length = place := by omega
      rw [items, hchunks, hat.items_eq, List.flatMap_append, List.flatMap_cons,
        List.set_append_right _ _ (by omega), List.set_append_left _ _ (by omega), hplace]
    have hlen : (log.setAt index item).len = log.len := by
      rw [ChunkLog.setAt, hat.located]
    have hbehind := h.behind
    refine ⟨⟨fun c hc => ?_, ?_, ?_⟩, hitems⟩
    · rw [hchunks] at hc
      cases pre with
      | nil =>
        obtain ⟨hstraight, hne, hcount⟩ := h.first chunk (by simp [hat.chunks])
        have heq : { chunk with items := chunk.items.set place item } = c := by simpa using hc
        subst heq
        refine ⟨?_, ?_, ?_⟩
        · rw [Deque.Straight, List.length_set]
          exact hstraight
        · simpa using hne
        · rw [List.length_set]
          exact hcount
      | cons first pre => exact h.first c (by simpa [hat.chunks] using hc)
    · rw [hat.chunks] at hbehind
      rw [hchunks]
      cases pre with
      | nil => exact hbehind
      | cons first pre =>
        rw [List.cons_append, List.tail_cons] at hbehind ⊢
        exact hbehind.replace rfl rfl List.length_set
    · rw [hlen, hitems, List.length_set, h.len]
  · have hnone : log.locate index = none := by
      rw [locate, if_pos (by rw [h.len]; omega)]
    have hsame : log.setAt index item = log := by rw [ChunkLog.setAt, hnone]
    rw [hsame, List.set_eq_of_length_le (by omega)]
    exact ⟨h, rfl⟩

/-- The items that answer `true` come before those that do not. -/
def Partitioned (pred : T → Bool) (l : List T) : Prop := ∀ x ∈ l.dropWhile pred, pred x = false

theorem Partitioned.at_iff {pred : T → Bool} {l : List T} (h : Partitioned pred l) {i : ℕ} {x : T}
    (hx : l[i]? = some x) : pred x = true ↔ i < (l.takeWhile pred).length := by
  rw [← List.takeWhile_append_dropWhile (p := pred) (l := l)] at hx
  constructor
  · intro htrue
    by_contra hge
    rw [List.getElem?_append_right (by omega)] at hx
    simp [h x (List.mem_of_getElem? hx)] at htrue
  · intro hlt
    rw [List.getElem?_append_left hlt] at hx
    exact List.mem_takeWhile_imp (List.mem_of_getElem? hx)

theorem Laid.partitionLoop_eq {log : ChunkLog T} (h : log.Laid) {pred : T → Bool}
    (hpart : Partitioned pred log.items) {low high : ℕ} (hhigh : high ≤ log.items.length)
    (hbelow : low ≤ (log.items.takeWhile pred).length)
    (habove : (log.items.takeWhile pred).length ≤ high) :
    log.partitionLoop pred low high = (log.items.takeWhile pred).length := by
  fun_induction log.partitionLoop pred low high with
  | case1 low high hlt mid htrue ih =>
    obtain ⟨x, hx, hpred⟩ := (Option.any_eq_true _ _).mp htrue
    rw [h.get_eq] at hx
    exact ih hhigh ((hpart.at_iff hx).mp hpred) habove
  | case2 low high hlt mid hfalse ih =>
    have hmid : mid < log.items.length := by omega
    have hx := List.getElem?_eq_getElem hmid
    rw [h.get_eq, hx] at hfalse
    refine ih (by omega) hbelow ?_
    by_contra hlt'
    exact hfalse ((hpart.at_iff hx).mpr (by omega))
  | case3 low high hge => omega

theorem Laid.partitionPoint_eq {log : ChunkLog T} (h : log.Laid) {pred : T → Bool}
    (hpart : Partitioned pred log.items) :
    log.partitionPoint pred = (log.items.takeWhile pred).length := by
  have hle := (List.takeWhile_sublist (l := log.items) pred).length_le
  rw [partitionPoint, h.len]
  exact h.partitionLoop_eq hpart le_rfl (Nat.zero_le _) hle

end ChunkLog

end WatchingZenoh
