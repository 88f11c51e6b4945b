import WatchingZenoh.ChunkLog

/-! The items of a log from one position on, read from both ends. The run read from the front, the
run read from the back and the whole chunks between them are kept apart, and since every chunk
between is full, what is left is known without counting. -/

namespace WatchingZenoh

namespace ChunkLog

structure Iter (T : Type) where
  front : List T
  middle : List (Deque T)
  back : List T

/-- What is asked of an iterator that can be read from both ends. -/
inductive Call
  | next
  | nextBack
  | nth (n : ℕ)
  | nthBack (n : ℕ)
deriving DecidableEq, Repr

def sliceCall {T : Type} : Call → List T → List T × Option T
  | .next, l => (l.tail, l.head?)
  | .nextBack, l => (l.dropLast, l.getLast?)
  | .nth n, l => (l.drop (n + 1), l[n]?)
  | .nthBack n, l => ((l.reverse.drop (n + 1)).reverse, l.reverse[n]?)

namespace Iter

variable {T : Type}

def left (it : Iter T) : ℕ := it.front.length + it.middle.length * chunkItems + it.back.length

def sizeHint (it : Iter T) : ℕ × Option ℕ := (it.left, some it.left)

def spend (_ : Iter T) : Iter T := ⟨[], [], []⟩

def nextPastFront (it : Iter T) : Iter T × Option T :=
  match it.middle with
  | chunk :: rest => (⟨chunk.run.tail, rest, it.back⟩, chunk.run.head?)
  | [] => ({ it with back := it.back.tail }, it.back.head?)

def nextBackPastBack (it : Iter T) : Iter T × Option T :=
  match it.middle.getLast? with
  | some chunk => (⟨it.front, it.middle.dropLast, chunk.run.dropLast⟩, chunk.run.getLast?)
  | none => ({ it with front := it.front.dropLast }, it.front.getLast?)

def next (it : Iter T) : Iter T × Option T :=
  match it.front with
  | item :: rest => ({ it with front := rest }, some item)
  | [] => it.nextPastFront

def nextBack (it : Iter T) : Iter T × Option T :=
  match it.back.getLast? with
  | some item => ({ it with back := it.back.dropLast }, some item)
  | none => it.nextBackPastBack

def nthLoop (front : List T) (back : List T) (n : ℕ) : List (Deque T) → Iter T × Option T
  | [] =>
    if n < front.length then (⟨front.drop (n + 1), [], back⟩, front[n]?)
    else (⟨[], [], back.drop (n - front.length + 1)⟩, back[n - front.length]?)
  | chunk :: rest =>
    if n < front.length then (⟨front.drop (n + 1), chunk :: rest, back⟩, front[n]?)
    else nthLoop chunk.run back (n - front.length) rest

def nth (it : Iter T) (n : ℕ) : Iter T × Option T :=
  if it.left ≤ n then (it.spend, none) else nthLoop it.front it.back n it.middle

def nthBackLoop (front : List T) (middle : List (Deque T)) (back : List T) (n : ℕ) :
    Iter T × Option T :=
  if n < back.length then
    (⟨front, middle, (sliceCall (.nthBack n) back).1⟩, (sliceCall (.nthBack n) back).2)
  else
    match hlast : middle.getLast? with
    | some chunk => nthBackLoop front middle.dropLast chunk.run (n - back.length)
    | none =>
      (⟨(sliceCall (.nthBack (n - back.length)) front).1, [], []⟩,
        (sliceCall (.nthBack (n - back.length)) front).2)
termination_by middle.length
decreasing_by
  have hne : middle ≠ [] := by
    rintro rfl
    simp at hlast
  have := List.length_pos_iff.mpr hne
  simp only [List.length_dropLast]
  omega

def nthBack (it : Iter T) (n : ℕ) : Iter T × Option T :=
  if it.left ≤ n then (it.spend, none) else nthBackLoop it.front it.middle it.back n

def call (it : Iter T) : Call → Iter T × Option T
  | .next => it.next
  | .nextBack => it.nextBack
  | .nth n => it.nth n
  | .nthBack n => it.nthBack n

/-- What a sequence of calls is answered, with the number left after each. -/
def answers (it : Iter T) : List Call → List (Option T × (ℕ × Option ℕ))
  | [] => []
  | c :: calls => ((it.call c).2, (it.call c).1.sizeHint) :: (it.call c).1.answers calls

def items (it : Iter T) : List T := it.front ++ (it.middle.flatMap Deque.items ++ it.back)

def Full (middle : List (Deque T)) : Prop :=
  ∀ c ∈ middle, c.run = c.items ∧ c.items.length = chunkItems

theorem length_flatMap_of_full {middle : List (Deque T)} (h : Full middle) :
    (middle.flatMap Deque.items).length = middle.length * chunkItems := by
  induction middle with
  | nil => simp
  | cons chunk rest ih =>
    have hchunk := (h chunk (by simp)).2
    have hrest := ih fun c hc => h c (by simp [hc])
    rw [List.flatMap_cons, List.length_append, hchunk, hrest, List.length_cons]
    ring

theorem left_eq {it : Iter T} (h : Full it.middle) : it.left = it.items.length := by
  rw [left, items, List.length_append, List.length_append, length_flatMap_of_full h]
  omega

theorem Full.dropLast {middle : List (Deque T)} (h : Full middle) : Full middle.dropLast :=
  fun c hc => h c (List.mem_of_mem_dropLast hc)

/-- A read of the iterator that agrees with the same read of a slice. -/
structure Agrees (r : Iter T × Option T) (slice : List T × Option T) : Prop where
  items : r.1.items = slice.1
  answer : r.2 = slice.2
  full : Full r.1.middle

theorem items_ne_nil {c : Deque T} (h : c.items.length = chunkItems) : c.items ≠ [] := by
  rw [← List.length_pos_iff, h]
  decide

theorem agrees_next {it : Iter T} (h : Full it.middle) :
    Agrees it.next (sliceCall .next it.items) := by
  obtain ⟨front, middle, back⟩ := it
  cases front with
  | cons item rest => exact ⟨rfl, rfl, h⟩
  | nil =>
    cases middle with
    | nil => exact ⟨rfl, rfl, h⟩
    | cons chunk rest =>
      obtain ⟨hrun, hlen⟩ := h chunk (by simp)
      obtain ⟨item, more, hitems⟩ := List.exists_cons_of_ne_nil (items_ne_nil hlen)
      rw [hitems] at hrun
      refine ⟨?_, ?_, fun c hc => h c (List.mem_cons_of_mem chunk hc)⟩
      · simp [next, nextPastFront, items, sliceCall, hrun, hitems]
      · simp [next, nextPastFront, items, sliceCall, hrun, hitems]

theorem agrees_nextBack {it : Iter T} (h : Full it.middle) :
    Agrees it.nextBack (sliceCall .nextBack it.items) := by
  obtain ⟨front, middle, back⟩ := it
  rcases List.eq_nil_or_concat back with rfl | ⟨init, item, rfl⟩
  · rcases List.eq_nil_or_concat middle with rfl | ⟨rest, chunk, rfl⟩
    · exact ⟨by simp [nextBack, nextBackPastBack, items, sliceCall],
        by simp [nextBack, nextBackPastBack, items, sliceCall], h⟩
    · rw [List.concat_eq_append] at h ⊢
      obtain ⟨hrun, hlen⟩ := h chunk (by simp)
      obtain ⟨more, item, hitems⟩ := (List.eq_nil_or_concat chunk.items).resolve_left
        (items_ne_nil hlen)
      rw [List.concat_eq_append] at hitems
      rw [hitems] at hrun
      have hslice : (Iter.mk front (rest ++ [chunk]) []).items =
          front ++ (rest.flatMap Deque.items ++ more) ++ [item] := by
        simp [items, hitems]
      rw [hslice]
      refine ⟨?_, ?_, fun c hc => h c ?_⟩
      · simp [nextBack, nextBackPastBack, items, sliceCall, hrun, List.dropLast_append_of_ne_nil]
      · simp [nextBack, nextBackPastBack, sliceCall, hrun]
      · simp only [nextBack, nextBackPastBack, List.getLast?_nil, List.getLast?_concat,
          List.dropLast_concat] at hc
        exact List.mem_append_left _ hc
  · rw [List.concat_eq_append]
    have hslice : (Iter.mk front middle (init ++ [item])).items =
        front ++ (middle.flatMap Deque.items ++ init) ++ [item] := by
      simp [items]
    rw [hslice]
    refine ⟨?_, ?_, ?_⟩
    · simp [nextBack, items, sliceCall]
    · simp [nextBack, sliceCall]
    · simpa [nextBack] using h

theorem sliceCall_nth_left {l l' : List T} {n : ℕ} (h : n < l.length) :
    sliceCall (.nth n) (l ++ l') =
      ((sliceCall (.nth n) l).1 ++ l', (sliceCall (.nth n) l).2) := by
  simp only [sliceCall]
  rw [List.drop_append_of_le_length (by omega), List.getElem?_append_left h]

theorem sliceCall_nth_right {l l' : List T} {n : ℕ} (h : ¬ n < l.length) :
    sliceCall (.nth n) (l ++ l') = sliceCall (.nth (n - l.length)) l' := by
  have hnil : l.drop (n + 1) = [] := List.drop_of_length_le (by omega)
  have hdrop : n + 1 - l.length = n - l.length + 1 := by omega
  simp only [sliceCall]
  rw [List.drop_append, hnil, List.nil_append, hdrop, List.getElem?_append_right (by omega)]

theorem sliceCall_nthBack_eq (l : List T) (n : ℕ) :
    sliceCall (.nthBack n) l =
      ((sliceCall (.nth n) l.reverse).1.reverse, (sliceCall (.nth n) l.reverse).2) := rfl

theorem sliceCall_nthBack_right {l l' : List T} {n : ℕ} (h : n < l'.length) :
    sliceCall (.nthBack n) (l ++ l') =
      (l ++ (sliceCall (.nthBack n) l').1, (sliceCall (.nthBack n) l').2) := by
  rw [sliceCall_nthBack_eq, List.reverse_append, sliceCall_nth_left (by simpa using h),
    sliceCall_nthBack_eq, List.reverse_append, List.reverse_reverse]

theorem sliceCall_nthBack_left {l l' : List T} {n : ℕ} (h : ¬ n < l'.length) :
    sliceCall (.nthBack n) (l ++ l') = sliceCall (.nthBack (n - l'.length)) l := by
  rw [sliceCall_nthBack_eq, List.reverse_append, sliceCall_nth_right (by simpa using h),
    List.length_reverse, sliceCall_nthBack_eq]

theorem agrees_nthLoop {front back : List T} {middle : List (Deque T)} {n : ℕ} (h : Full middle) :
    Agrees (nthLoop front back n middle)
      (sliceCall (.nth n) (front ++ (middle.flatMap Deque.items ++ back))) := by
  induction middle generalizing front n with
  | nil =>
    rw [nthLoop]
    split_ifs with hlt
    · rw [sliceCall_nth_left hlt]
      exact ⟨rfl, rfl, h⟩
    · rw [sliceCall_nth_right hlt]
      exact ⟨rfl, rfl, h⟩
  | cons chunk rest ih =>
    obtain ⟨hrun, hlen⟩ := h chunk (by simp)
    rw [nthLoop]
    split_ifs with hlt
    · rw [sliceCall_nth_left hlt]
      exact ⟨rfl, rfl, h⟩
    · rw [sliceCall_nth_right hlt, List.flatMap_cons, List.append_assoc, hrun]
      exact ih fun c hc => h c (List.mem_cons_of_mem chunk hc)

theorem agrees_nthBackLoop {front back : List T} {middle : List (Deque T)} {n : ℕ}
    (h : Full middle) :
    Agrees (nthBackLoop front middle back n)
      (sliceCall (.nthBack n) (front ++ (middle.flatMap Deque.items ++ back))) := by
  fun_induction nthBackLoop front middle back n with
  | case1 middle back n hlt =>
    rw [← List.append_assoc, sliceCall_nthBack_right hlt]
    refine ⟨?_, rfl, h⟩
    rw [items, List.append_assoc]
  | case2 middle back n hge chunk hlast ih =>
    obtain ⟨rest, hmiddle⟩ := List.getLast?_eq_some_iff.mp hlast
    obtain ⟨hrun, -⟩ := h chunk (by simp [hmiddle])
    have hdrop : middle.dropLast = rest := by rw [hmiddle, List.dropLast_concat]
    have hloop := ih h.dropLast
    rw [hdrop, hrun] at hloop
    rw [← List.append_assoc, sliceCall_nthBack_left hge, hdrop, hrun, hmiddle, List.flatMap_append,
      List.flatMap_singleton]
    exact hloop
  | case3 middle back n hge hlast =>
    have hmiddle : middle = [] := List.getLast?_eq_none_iff.mp hlast
    subst hmiddle
    rw [← List.append_assoc, sliceCall_nthBack_left hge, List.flatMap_nil, List.append_nil]
    refine ⟨?_, rfl, h⟩
    simp [items]

theorem agrees_call {it : Iter T} (h : Full it.middle) (c : Call) :
    Agrees (it.call c) (sliceCall c it.items) := by
  cases c with
  | next => exact agrees_next h
  | nextBack => exact agrees_nextBack h
  | nth n =>
    have hleft := left_eq h
    rw [call, nth]
    split_ifs with hpast
    · refine ⟨?_, ?_, by simp [spend, Full]⟩
      · simp only [sliceCall]
        rw [List.drop_of_length_le (by omega)]
        rfl
      · simp only [sliceCall]
        rw [List.getElem?_eq_none (by omega)]
    · exact agrees_nthLoop h
  | nthBack n =>
    have hleft := left_eq h
    rw [call, nthBack]
    split_ifs with hpast
    · refine ⟨?_, ?_, by simp [spend, Full]⟩
      · simp only [sliceCall]
        rw [List.drop_of_length_le (by rw [List.length_reverse]; omega)]
        rfl
      · simp only [sliceCall]
        rw [List.getElem?_eq_none (by rw [List.length_reverse]; omega)]
    · exact agrees_nthBackLoop h

end Iter

/-- The answers of a slice, with the number left after each. -/
def sliceAnswers {T : Type} (l : List T) : List Call → List (Option T × (ℕ × Option ℕ))
  | [] => []
  | c :: calls =>
    ((sliceCall c l).2, ((sliceCall c l).1.length, some (sliceCall c l).1.length)) ::
      sliceAnswers (sliceCall c l).1 calls

variable {T : Type}

theorem Iter.answers_eq {it : Iter T} (h : Iter.Full it.middle) (calls : List Call) :
    it.answers calls = sliceAnswers it.items calls := by
  induction calls generalizing it with
  | nil => rfl
  | cons c calls ih =>
    have hcall := Iter.agrees_call h c
    rw [Iter.answers, sliceAnswers, ih hcall.full, hcall.answer, Iter.sizeHint,
      Iter.left_eq hcall.full, hcall.items]

def iterFrom (log : ChunkLog T) (start : ℕ) : Iter T :=
  match log.locate start with
  | none => ⟨[], [], []⟩
  | some (chunk, at') =>
    let last := log.chunks.length - 1
    let front := ((log.chunks[chunk]?.map Deque.run).getD []).drop at'
    if chunk = last then ⟨front, [], []⟩
    else ⟨front, (log.chunks.take last).drop (chunk + 1),
      (log.chunks[last]?.map Deque.run).getD []⟩

theorem Laid.iterFrom {log : ChunkLog T} (h : log.Laid) (start : ℕ) :
    Iter.Full (log.iterFrom start).middle ∧ (log.iterFrom start).items = log.items.drop start := by
  by_cases hi : start < log.items.length
  · obtain ⟨pre, chunk, post, place, hat⟩ := h.exists_at hi
    have hindex := hat.index
    have hinside := hat.inside
    have hdrop : log.items.drop start = chunk.items.drop place ++ post.flatMap Deque.items := by
      rw [hat.items_eq, List.drop_append, List.drop_of_length_le (by omega), List.nil_append,
        List.drop_append_of_le_length (by omega)]
      congr 2
      omega
    rcases List.eq_nil_or_concat post with rfl | ⟨mid, last, rfl⟩
    · have hiter : log.iterFrom start = ⟨chunk.items.drop place, [], []⟩ := by
        simp [ChunkLog.iterFrom, hat.located, hat.chunks, hat.run]
      rw [hiter, hdrop]
      exact ⟨by simp [Iter.Full], by simp [Iter.items]⟩
    · rw [List.concat_eq_append] at hat hdrop
      have hlast : last.run = last.items := hat.last last (by simp)
      have hfull := hat.full
      rw [List.dropLast_concat] at hfull
      have hlen : log.chunks.length - 1 = pre.length + 1 + mid.length := by
        rw [hat.chunks]
        simp
        omega
      have hiter : log.iterFrom start = ⟨chunk.items.drop place, mid, last.items⟩ := by
        have hwhole : log.chunks = (pre ++ chunk :: mid) ++ [last] := by simp [hat.chunks]
        have htake : log.chunks.take (pre.length + 1 + mid.length) = pre ++ chunk :: mid := by
          rw [hwhole, List.take_left' (by simp; omega)]
        have hget : log.chunks[pre.length + 1 + mid.length]? = some last := by
          have hlen' : (pre ++ chunk :: mid).length = pre.length + 1 + mid.length := by
            simp
            omega
          rw [hwhole, ← hlen', List.getElem?_append_right le_rfl, Nat.sub_self,
            List.getElem?_cons_zero]
        have hchunk : log.chunks[pre.length]? = some chunk := by simp [hat.chunks]
        have hne : pre.length ≠ pre.length + 1 + mid.length := by omega
        simp only [ChunkLog.iterFrom, hat.located, hlen, if_neg hne, htake, hget, hchunk,
          Option.map_some, Option.getD_some, hat.run, hlast]
        congr 1
        rw [List.drop_append, List.drop_of_length_le (by omega), List.nil_append]
        simp
      rw [hiter, hdrop]
      exact ⟨hfull, by simp [Iter.items]⟩
  · have hnone : log.locate start = none := by
      rw [locate, if_pos (by rw [h.len]; omega)]
    rw [ChunkLog.iterFrom, hnone, List.drop_of_length_le (by omega)]
    exact ⟨by simp [Iter.Full], rfl⟩

/-- What a log is told: an item to append, one to release, or a write through `get_mut`. -/
inductive Op (T : Type)
  | pushBack (item : T)
  | popFront
  | getMut (index : ℕ) (item : T)

def step (log : ChunkLog T) : Op T → ChunkLog T × Option T
  | .pushBack item => (log.pushBack item, none)
  | .popFront => log.popFront
  | .getMut index item => (log.setAt index item, log.get index)

def listStep (l : List T) : Op T → List T × Option T
  | .pushBack item => (l ++ [item], none)
  | .popFront => (l.tail, l.head?)
  | .getMut index item => (l.set index item, l[index]?)

def runOps (log : ChunkLog T) (ops : List (Op T)) : ChunkLog T × List (Option T) :=
  ops.foldl (fun r op => ((r.1.step op).1, r.2 ++ [(r.1.step op).2])) (log, [])

def listRunOps (l : List T) (ops : List (Op T)) : List T × List (Option T) :=
  ops.foldl (fun r op => ((listStep r.1 op).1, r.2 ++ [(listStep r.1 op).2])) (l, [])

theorem Laid.step {log : ChunkLog T} (h : log.Laid) (op : Op T) :
    (log.step op).1.Laid ∧ (log.step op).1.items = (listStep log.items op).1 ∧
      (log.step op).2 = (listStep log.items op).2 := by
  cases op with
  | pushBack item =>
    obtain ⟨hlaid, hitems⟩ := h.pushBack item
    exact ⟨hlaid, hitems, rfl⟩
  | popFront => exact h.popFront
  | getMut index item =>
    obtain ⟨hlaid, hitems⟩ := h.setAt index item
    exact ⟨hlaid, hitems, h.get_eq index⟩

theorem runOps_spec (ops : List (Op T)) :
    (runOps new ops).1.Laid ∧ (runOps new ops).1.items = (listRunOps [] ops).1 ∧
      (runOps new ops).2 = (listRunOps [] ops).2 := by
  induction ops using List.reverseRecOn with
  | nil => exact ⟨laid_new, rfl, rfl⟩
  | append_singleton ops op ih =>
    obtain ⟨hlaid, hitems, hanswers⟩ := ih
    rw [runOps] at hlaid hitems hanswers
    rw [listRunOps] at hitems hanswers
    simp only [runOps, listRunOps, List.foldl_append, List.foldl_cons, List.foldl_nil]
    obtain ⟨hlaid', hitems', hanswer'⟩ := hlaid.step op
    rw [hitems] at hitems' hanswer'
    exact ⟨hlaid', hitems', by rw [hanswers, hanswer']⟩

/-- A log answers as the plain list of the items it holds, after any operations, and its iterator
as the iterator of a slice of that list. -/
theorem chunkLog_as_list (ops : List (Op T)) :
    (runOps new ops).2 = (listRunOps [] ops).2 ∧
    (runOps new ops).1.len = (listRunOps [] ops).1.length ∧
    (∀ index, (runOps new ops).1.get index = (listRunOps [] ops).1[index]?) ∧
    (runOps new ops).1.front = (listRunOps [] ops).1.head? ∧
    (runOps new ops).1.back = (listRunOps [] ops).1.getLast? ∧
    (∀ pred, Partitioned pred (listRunOps [] ops).1 →
      (runOps new ops).1.partitionPoint pred = ((listRunOps [] ops).1.takeWhile pred).length) ∧
    ∀ start calls,
      ((runOps new ops).1.iterFrom start).sizeHint =
        (((listRunOps [] ops).1.drop start).length, some ((listRunOps [] ops).1.drop start).length) ∧
      ((runOps new ops).1.iterFrom start).answers calls =
        sliceAnswers ((listRunOps [] ops).1.drop start) calls := by
  obtain ⟨hlaid, hitems, hanswers⟩ := runOps_spec ops
  generalize (runOps new ops).1 = log at hlaid hitems
  rw [← hitems]
  have hlen := hlaid.len
  refine ⟨hanswers, hlen, hlaid.get_eq, ?_, ?_, fun pred hpart => hlaid.partitionPoint_eq hpart,
    fun start calls => ?_⟩
  · rw [front, hlaid.get_eq, List.head?_eq_getElem?]
  · rw [back, hlen, List.getLast?_eq_getElem?]
    split_ifs with hempty
    · rw [List.getElem?_eq_none (by omega)]
    · exact hlaid.get_eq _
  · obtain ⟨hfull, hrest⟩ := hlaid.iterFrom start
    rw [Iter.sizeHint, Iter.left_eq hfull, Iter.answers_eq hfull, hrest]
    exact ⟨rfl, rfl⟩

theorem chunkLog_as_list_two :
    (runOps new [.pushBack 3, .pushBack 5, .popFront, .pushBack 7]).1.partitionPoint (· < 6) = 1 :=
  (chunkLog_as_list [.pushBack 3, .pushBack 5, .popFront, .pushBack 7]).2.2.2.2.2.1 (· < 6)
    (by rw [Partitioned]; decide)

end ChunkLog

end WatchingZenoh
