import Mathlib
import WatchingZenoh.Library.SortedEntries

/-! An ordered map held as a list of sorted chunks. The chunks laid end to end are the entries of the
map in the order of their keys; every operation finds one chunk, and what it does there it does to the
whole. -/

namespace WatchingZenoh

open SortedEntries

def chunkSize : ℕ := 64

structure SortedChunks (K V : Type) where
  chunks : List (List (K × V))
  len : ℕ

namespace SortedChunks

variable {K V : Type} [LinearOrder K]

def new : SortedChunks K V := ⟨[], 0⟩

def clear (_ : SortedChunks K V) : SortedChunks K V := ⟨[], 0⟩

def iter (s : SortedChunks K V) : List (K × V) := s.chunks.flatten

def startsBy (key : K) (chunk : List (K × V)) : Bool := chunk.head?.any fun e => e.1 ≤ key

/-- The chunk a key belongs in; one below every key held belongs in the first. -/
def chunkFor (s : SortedChunks K V) (key : K) : ℕ :=
  (s.chunks.takeWhile (startsBy key)).length - 1

/-- Where a key is: its chunk and its place in it. -/
def find (s : SortedChunks K V) (key : K) : Option (ℕ × ℕ) := do
  let i := s.chunkFor key
  let chunk ← s.chunks[i]?
  let place ← (search key chunk).toOption
  pure (i, place)

def entryAt (s : SortedChunks K V) (p : ℕ × ℕ) : Option (K × V) := s.chunks[p.1]?.bind (·[p.2]?)

def get (s : SortedChunks K V) (key : K) : Option V := do
  let p ← s.find key
  let e ← s.entryAt p
  pure e.2

def containsKey (s : SortedChunks K V) (key : K) : Bool := (s.find key).isSome

/-- A full chunk, split in the middle, with the entry in the half it belongs in. -/
def split (chunk : List (K × V)) (place : ℕ) (entry : K × V) : List (K × V) × List (K × V) :=
  let lower := chunk.take (chunkSize / 2)
  let upper := chunk.drop (chunkSize / 2)
  if place ≤ chunkSize / 2 then (lower.insertIdx place entry, upper)
  else (lower, upper.insertIdx (place - chunkSize / 2) entry)

/-- The value put at a key, and the one it replaced. -/
def insert (s : SortedChunks K V) (key : K) (value : V) : SortedChunks K V × Option V :=
  let i := s.chunkFor key
  match s.chunks[i]? with
  | none => (⟨[[(key, value)]], 1⟩, none)
  | some chunk =>
    match search key chunk with
    | .ok place =>
      (⟨s.chunks.set i (chunk.modify place fun e => (e.1, value)), s.len⟩, chunk[place]?.map Prod.snd)
    | .error place =>
      let chunks :=
        if chunk.length < chunkSize then s.chunks.set i (chunk.insertIdx place (key, value))
        else if i + 1 = s.chunks.length ∧ place = chunkSize then s.chunks ++ [[(key, value)]]
        else
          let halves := split chunk place (key, value)
          (s.chunks.set i halves.1).insertIdx (i + 1) halves.2
      (⟨chunks, s.len + 1⟩, none)

/-- The value at a key taken out; a chunk that is left empty is given back. -/
def remove (s : SortedChunks K V) (key : K) : SortedChunks K V × Option V :=
  match s.find key with
  | none => (s, none)
  | some (i, place) =>
    let chunk := (s.chunks[i]?.getD []).eraseIdx place
    let chunks := if chunk = [] then s.chunks.eraseIdx i else s.chunks.set i chunk
    (⟨chunks, s.len - 1⟩, (s.entryAt (i, place)).map Prod.snd)

/-- The keys of `other` are all past those of `s`. -/
def pastTheEnd (s other : SortedChunks K V) : Bool :=
  match s.chunks.getLast?.bind List.getLast?, other.chunks.head?.bind List.head? with
  | some mine, some theirs => decide (mine.1 < theirs.1)
  | _, _ => true

/-- Every entry of `other` moved in, and `other` left empty. -/
def append (s other : SortedChunks K V) : SortedChunks K V × SortedChunks K V :=
  if other.len = 0 then (s, other)
  else if s.pastTheEnd other then (⟨s.chunks ++ other.chunks, s.len + other.len⟩, ⟨[], 0⟩)
  else (other.chunks.flatten.foldl (fun s e => (s.insert e.1 e.2).1) s, ⟨[], 0⟩)

/-- The chunks are non-empty and not too long, laid end to end they hold the map, and the count is
right. -/
structure Holds (s : SortedChunks K V) (map : K → Option V) : Prop where
  chunk : ∀ c ∈ s.chunks, c ≠ [] ∧ c.length ≤ chunkSize
  maps : Maps s.iter map
  len : s.len = s.iter.length

variable {s other : SortedChunks K V} {map : K → Option V} {key : K}

theorem holds_new : Holds (new : SortedChunks K V) fun _ => none :=
  ⟨by simp [new], maps_nil, rfl⟩

theorem Holds.clear : Holds s.clear fun _ => none := ⟨by simp [SortedChunks.clear], maps_nil, rfl⟩

theorem Holds.chunkFor_spec (h : s.Holds map) (hne : s.chunks ≠ []) (key : K) :
    ∃ before c after, s.chunks = before ++ c :: after ∧ before.length = s.chunkFor key ∧
      (∀ e ∈ before.flatten, e.1 < key) ∧ ∀ e ∈ after.flatten, key < e.1 := by
  have hsorted := h.maps.sorted
  rw [Sorted, iter] at hsorted
  have habove : ∀ {front rest : List (List (K × V))} {first : List (K × V)},
      s.chunks = front ++ first :: rest →
      startsBy key first = false →
      ∀ e ∈ (first :: rest).flatten, key < e.1 := by
    intro front rest first hsplit hfirst
    have hfirstNe := (h.chunk first (by simp [hsplit])).1
    obtain ⟨e0, tail, rfl⟩ := List.exists_cons_of_ne_nil hfirstNe
    have hkey : key < e0.1 := by simpa [startsBy] using hfirst
    rw [hsplit, List.flatten_append, List.pairwise_append] at hsorted
    have hrest := hsorted.2.1
    rw [List.flatten_cons, List.cons_append, List.pairwise_cons] at hrest
    intro e he
    rw [List.flatten_cons, List.cons_append] at he
    rcases List.mem_cons.mp he with rfl | he
    · exact hkey
    · exact hkey.trans (hrest.1 e he)
  have hsplit : s.chunks.takeWhile (startsBy key) ++ s.chunks.dropWhile (startsBy key) = s.chunks :=
    List.takeWhile_append_dropWhile
  have hhead : ∀ c ∈ (s.chunks.dropWhile (startsBy key)).head?, startsBy key c = false := by
    intro c hc
    have hnot := List.head?_dropWhile_not (startsBy key) s.chunks
    rw [Option.mem_def.mp hc] at hnot
    exact hnot
  have hlow : ∀ c ∈ s.chunks.takeWhile (startsBy key), startsBy key c = true :=
    fun c hc => List.mem_takeWhile_imp hc
  rw [chunkFor]
  generalize s.chunks.takeWhile (startsBy key) = low at *
  generalize s.chunks.dropWhile (startsBy key) = high at *
  have hhigh : ∀ e ∈ high.flatten, key < e.1 := by
    cases high with
    | nil => simp
    | cons first rest => exact habove hsplit.symm (hhead first (by simp))
  rcases List.eq_nil_or_concat low with rfl | ⟨init, c, rfl⟩
  · cases high with
    | nil => exact absurd (by simpa using hsplit.symm) hne
    | cons first rest =>
      refine ⟨[], first, rest, by simpa using hsplit.symm, rfl, by simp, fun e he => ?_⟩
      exact hhigh e (by rw [List.flatten_cons]; exact List.mem_append_right _ he)
  · rw [List.concat_eq_append] at *
    refine ⟨init, c, high, ?_, by simp, fun e he => ?_, hhigh⟩
    · rw [← hsplit]
      simp
    · have hcNe := (h.chunk c (by simp [← hsplit])).1
      obtain ⟨e0, tail, rfl⟩ := List.exists_cons_of_ne_nil hcNe
      have hkey : e0.1 ≤ key := by simpa [startsBy] using hlow (e0 :: tail) (by simp)
      rw [← hsplit, List.append_assoc, List.flatten_append, List.pairwise_append] at hsorted
      exact (hsorted.2.2 e he e0 (by simp)).trans_le hkey

/-- Where a key is, or would be: the chunk it belongs in, and its place there. -/
inductive Located (s : SortedChunks K V) (key : K) : Prop
  | here (before : List (List (K × V))) (front : List (K × V)) (v : V) (back : List (K × V))
      (after : List (List (K × V)))
      (hchunks : s.chunks = before ++ (front ++ (key, v) :: back) :: after)
      (hbefore : before.length = s.chunkFor key)
      (hsearch : search key (front ++ (key, v) :: back) = .ok front.length)
  | absent (before : List (List (K × V))) (front back : List (K × V)) (after : List (List (K × V)))
      (hchunks : s.chunks = before ++ (front ++ back) :: after)
      (hbefore : before.length = s.chunkFor key)
      (hsearch : search key (front ++ back) = .error front.length)
      (hlow : ∀ e ∈ before.flatten ++ front, e.1 < key)
      (hhigh : ∀ e ∈ back ++ after.flatten, key < e.1)

theorem Holds.located (h : s.Holds map) (hne : s.chunks ≠ []) (key : K) : s.Located key := by
  obtain ⟨before, c, after, hchunks, hbefore, hlow, hhigh⟩ := h.chunkFor_spec hne key
  have hsorted : Sorted c := by
    have hall := h.maps.sorted
    rw [Sorted, iter, hchunks, List.flatten_append, List.pairwise_append, List.flatten_cons,
      List.pairwise_append] at hall
    exact hall.2.1.1
  cases hsearch : search key c with
  | ok place =>
    obtain ⟨front, v, back, rfl, rfl⟩ := search_ok hsearch
    exact .here before front v back after hchunks hbefore hsearch
  | error place =>
    obtain ⟨front, back, rfl, rfl, hfront, hback⟩ := search_error hsorted hsearch
    refine .absent before front back after hchunks hbefore hsearch (fun e he => ?_) fun e he => ?_
    · rcases List.mem_append.mp he with he | he
      · exact hlow e he
      · exact hfront e he
    · rcases List.mem_append.mp he with he | he
      · exact hback e he
      · exact hhigh e he

omit [LinearOrder K] in
theorem iter_split {before after : List (List (K × V))} {front back : List (K × V)}
    (h : s.chunks = before ++ (front ++ back) :: after) :
    s.iter = (before.flatten ++ front) ++ (back ++ after.flatten) := by
  rw [iter, h]
  simp

theorem getElem?_middle {α : Type} (before : List α) (c : α) (after : List α) :
    (before ++ c :: after)[before.length]? = some c := by simp

theorem set_middle {α : Type} (before : List α) (c d : α) (after : List α) :
    (before ++ c :: after).set before.length d = before ++ d :: after := by simp

theorem insertIdx_middle {α : Type} (front : List α) (x : α) (back : List α) :
    (front ++ back).insertIdx front.length x = front ++ x :: back := by
  induction front with
  | nil => rfl
  | cons a front ih =>
    rw [List.cons_append, List.length_cons, List.insertIdx_succ_cons, ih, List.cons_append]

theorem eraseIdx_middle {α : Type} (front : List α) (x : α) (back : List α) :
    (front ++ x :: back).eraseIdx front.length = front ++ back := by
  induction front with
  | nil => rfl
  | cons a front ih =>
    rw [List.cons_append, List.length_cons, List.eraseIdx_cons_succ, ih, List.cons_append]

theorem modify_middle {α : Type} (front : List α) (x : α) (back : List α) (f : α → α) :
    (front ++ x :: back).modify front.length f = front ++ f x :: back := by
  induction front with
  | nil => rfl
  | cons a front ih =>
    rw [List.cons_append, List.length_cons, List.modify_succ_cons, ih, List.cons_append]

theorem find_of_nil (h : s.chunks = []) (key : K) : s.find key = none := by
  simp [find, h]

theorem Holds.map_of_nil (h : s.Holds map) (hnil : s.chunks = []) : map key = none :=
  h.maps.get_of_absent (by simp [iter, hnil])

theorem Holds.find_eq (h : s.Holds map) (key : K) :
    (map key = none ∧ s.find key = none) ∨
      ∃ before front v back after, s.chunks = before ++ (front ++ (key, v) :: back) :: after ∧
        map key = some v ∧ s.find key = some (before.length, front.length) := by
  by_cases hne : s.chunks = []
  · exact .inl ⟨h.map_of_nil hne, find_of_nil hne key⟩
  have hmaps := h.maps
  cases h.located hne key with
  | here before front v back after hchunks hbefore hsearch =>
    refine .inr ⟨before, front, v, back, after, hchunks, ?_, ?_⟩
    · rw [iter_split hchunks, List.cons_append] at hmaps
      exact hmaps.get_of_split
    · rw [find, ← hbefore, hchunks, getElem?_middle]
      simp only [Option.bind_eq_bind, Option.bind_some, hsearch]
      rfl
  | absent before front back after hchunks hbefore hsearch hlow hhigh =>
    refine .inl ⟨hmaps.get_of_absent fun e he => ?_, ?_⟩
    · rw [iter_split hchunks] at he
      rcases List.mem_append.mp he with he | he
      · exact (hlow e he).ne
      · exact (hhigh e he).ne'
    · rw [find, ← hbefore, hchunks, getElem?_middle]
      simp only [Option.bind_eq_bind, Option.bind_some, hsearch]
      rfl

theorem Holds.get_eq (h : s.Holds map) (key : K) : s.get key = map key := by
  rcases h.find_eq key with ⟨hmap, hfind⟩ | ⟨before, front, v, back, after, hchunks, hmap, hfind⟩
  · rw [get, hfind, hmap]
    rfl
  · rw [get, hfind, hmap]
    simp [entryAt, hchunks]

theorem Holds.containsKey_eq (h : s.Holds map) (key : K) : s.containsKey key = (map key).isSome := by
  rcases h.find_eq key with ⟨hmap, hfind⟩ | ⟨before, front, v, back, after, hchunks, hmap, hfind⟩
  · rw [containsKey, hfind, hmap]
    rfl
  · rw [containsKey, hfind, hmap]
    rfl

theorem chunk_of_replaced {before after : List (List (K × V))} {c : List (K × V)}
    (mid : List (List (K × V))) (h : s.Holds map) (hchunks : s.chunks = before ++ c :: after)
    (hmid : ∀ d ∈ mid, d ≠ [] ∧ d.length ≤ chunkSize) :
    ∀ d ∈ before ++ (mid ++ after), d ≠ [] ∧ d.length ≤ chunkSize := by
  intro d hd
  rcases List.mem_append.mp hd with hd | hd
  · exact h.chunk d (by simp [hchunks, hd])
  · rcases List.mem_append.mp hd with hd | hd
    · exact hmid d hd
    · exact h.chunk d (by simp [hchunks, hd])

omit [LinearOrder K] in
theorem split_spec (front back : List (K × V)) (entry : K × V)
    (hfull : (front ++ back).length = chunkSize) :
    (split (front ++ back) front.length entry).1 ++ (split (front ++ back) front.length entry).2 =
        front ++ entry :: back ∧
      (∀ d ∈ [(split (front ++ back) front.length entry).1,
        (split (front ++ back) front.length entry).2], d ≠ [] ∧ d.length ≤ chunkSize) := by
  have hhalf : chunkSize / 2 = 32 := rfl
  rw [chunkSize, List.length_append] at hfull
  by_cases hlow : front.length ≤ 32
  · have htake : (front ++ back).take 32 = front ++ back.take (32 - front.length) := by
      rw [List.take_append, List.take_of_length_le hlow]
    have hdrop : (front ++ back).drop 32 = back.drop (32 - front.length) := by
      rw [List.drop_append, List.drop_of_length_le hlow, List.nil_append]
    have hsplit : split (front ++ back) front.length entry =
        (front ++ entry :: back.take (32 - front.length), back.drop (32 - front.length)) := by
      rw [split, hhalf]
      simp only [htake, hdrop, if_pos hlow, insertIdx_middle]
    rw [hsplit]
    refine ⟨by simp, fun d hd => ?_⟩
    simp only [List.mem_cons, List.not_mem_nil, or_false] at hd
    rcases hd with rfl | rfl
    · refine ⟨by simp, ?_⟩
      simp only [List.length_append, List.length_cons, List.length_take, chunkSize]
      omega
    · refine ⟨fun hnil => ?_, ?_⟩
      · have := congrArg List.length hnil
        simp only [List.length_drop, List.length_nil] at this
        omega
      · simp only [List.length_drop, chunkSize]
        omega
  · have htake : (front ++ back).take 32 = front.take 32 := by
      rw [List.take_append_of_le_length (by omega)]
    have hdrop : (front ++ back).drop 32 = front.drop 32 ++ back := by
      rw [List.drop_append_of_le_length (by omega)]
    have hplace : (front.drop 32).length = front.length - 32 := List.length_drop
    have hsplit : split (front ++ back) front.length entry =
        (front.take 32, front.drop 32 ++ entry :: back) := by
      rw [split, hhalf]
      simp only [htake, hdrop, if_neg hlow, ← hplace, insertIdx_middle]
    rw [hsplit]
    refine ⟨by rw [← List.append_assoc, List.take_append_drop], fun d hd => ?_⟩
    simp only [List.mem_cons, List.not_mem_nil, or_false] at hd
    rcases hd with rfl | rfl
    · refine ⟨fun hnil => ?_, ?_⟩
      · have := congrArg List.length hnil
        simp only [List.length_take, List.length_nil] at this
        omega
      · simp only [List.length_take, chunkSize]
        omega
    · refine ⟨by simp, ?_⟩
      simp only [List.length_append, List.length_cons, List.length_drop, chunkSize]
      omega

theorem Holds.of_insert {before after : List (List (K × V))} {front back : List (K × V)} {v : V}
    (h : s.Holds map) (mid : List (List (K × V))) (hchunks : s.chunks = before ++ (front ++ back) :: after)
    (hlow : ∀ e ∈ before.flatten ++ front, e.1 < key)
    (hhigh : ∀ e ∈ back ++ after.flatten, key < e.1) (hmid : mid.flatten = front ++ (key, v) :: back)
    (hchunk : ∀ d ∈ mid, d ≠ [] ∧ d.length ≤ chunkSize) :
    Holds ⟨before ++ (mid ++ after), s.len + 1⟩ (Function.update map key (some v)) := by
  have hmaps := h.maps
  have hlen := h.len
  rw [iter_split hchunks] at hmaps hlen
  have hiter : (⟨before ++ (mid ++ after), s.len + 1⟩ : SortedChunks K V).iter =
      (before.flatten ++ front) ++ (key, v) :: (back ++ after.flatten) := by
    rw [iter, List.flatten_append, List.flatten_append, hmid]
    simp
  refine ⟨chunk_of_replaced mid h hchunks hchunk, ?_, ?_⟩
  · rw [hiter]
    exact hmaps.insert hlow hhigh v
  · rw [hiter, hlen]
    simp only [List.length_append, List.length_cons]
    omega

theorem Holds.insert (h : s.Holds map) (key : K) (v : V) :
    (s.insert key v).1.Holds (Function.update map key (some v)) ∧ (s.insert key v).2 = map key := by
  by_cases hne : s.chunks = []
  · have hget : s.chunks[s.chunkFor key]? = none := by simp [hne]
    have hmaps := h.maps
    rw [iter, hne, List.flatten_nil] at hmaps
    rw [SortedChunks.insert]
    simp only [hget]
    refine ⟨⟨by simp [chunkSize], ?_, rfl⟩, (h.map_of_nil hne).symm⟩
    exact @Maps.insert K V _ [] [] map key hmaps (by simp) (by simp) v
  cases h.located hne key with
  | here before front w back after hchunks hbefore hsearch =>
    have hmaps := h.maps
    have hlen := h.len
    rw [iter_split hchunks, List.cons_append] at hmaps hlen
    have hinsert : s.insert key v = (⟨before ++ (front ++ (key, v) :: back) :: after, s.len⟩,
        some w) := by
      rw [SortedChunks.insert, ← hbefore, hchunks, getElem?_middle]
      simp only [hsearch, set_middle, modify_middle, getElem?_middle, Option.map_some]
    have hiter : (⟨before ++ (front ++ (key, v) :: back) :: after, s.len⟩ : SortedChunks K V).iter =
        (before.flatten ++ front) ++ (key, v) :: (back ++ after.flatten) := by
      rw [iter_split rfl, List.cons_append]
    have hold := h.chunk (front ++ (key, w) :: back) (by simp [hchunks])
    rw [hinsert]
    refine ⟨⟨?_, ?_, ?_⟩, hmaps.get_of_split.symm⟩
    · refine chunk_of_replaced [front ++ (key, v) :: back] h hchunks fun d hd => ?_
      rw [List.mem_singleton.mp hd]
      exact ⟨by simp, by simpa using hold.2⟩
    · rw [hiter]
      exact hmaps.replace v
    · rw [hiter, hlen]
      simp
  | absent before front back after hchunks hbefore hsearch hlow hhigh =>
    have hmaps := h.maps
    rw [iter_split hchunks] at hmaps
    have habsent : map key = none := hmaps.get_of_absent fun e he => by
      rcases List.mem_append.mp he with he | he
      · exact (hlow e he).ne
      · exact (hhigh e he).ne'
    have hold := h.chunk (front ++ back) (by simp [hchunks])
    rw [habsent, SortedChunks.insert, ← hbefore, hchunks, getElem?_middle]
    simp only [hsearch]
    refine ⟨?_, trivial⟩
    split_ifs with hroom hend
    · rw [set_middle, insertIdx_middle]
      refine h.of_insert [front ++ (key, v) :: back] hchunks hlow hhigh (by simp)
        fun d hd => ?_
      rw [List.mem_singleton.mp hd]
      refine ⟨by simp, ?_⟩
      simp only [List.length_append, List.length_cons] at hroom ⊢
      omega
    · obtain ⟨hlast, hplace⟩ := hend
      have hnone : after = [] := by
        rw [List.length_append, List.length_cons] at hlast
        exact List.eq_nil_of_length_eq_zero (by omega)
      have hback : back = [] := by
        have := hold.2
        rw [List.length_append] at this
        exact List.eq_nil_of_length_eq_zero (by omega)
      subst hnone
      subst hback
      have hof := h.of_insert (v := v) [front, [(key, v)]] hchunks hlow hhigh (by simp)
        fun d hd => by
          simp only [List.mem_cons, List.not_mem_nil, or_false] at hd
          rcases hd with rfl | rfl
          · simpa using hold
          · simp [chunkSize]
      simpa using hof
    · obtain ⟨hsplit, hhalves⟩ := split_spec front back (key, v)
        (le_antisymm hold.2 (Nat.le_of_not_lt hroom))
      have hof := h.of_insert (v := v)
        [(split (front ++ back) front.length (key, v)).1,
          (split (front ++ back) front.length (key, v)).2] hchunks hlow hhigh
        (by simpa using hsplit) hhalves
      rw [set_middle]
      have hplace : (before ++ (split (front ++ back) front.length (key, v)).1 :: after).insertIdx
          (before.length + 1) (split (front ++ back) front.length (key, v)).2 =
          before ++ ([(split (front ++ back) front.length (key, v)).1,
            (split (front ++ back) front.length (key, v)).2] ++ after) := by
        have hmid := insertIdx_middle (before ++ [(split (front ++ back) front.length (key, v)).1])
          (split (front ++ back) front.length (key, v)).2 after
        simpa using hmid
      rw [hplace]
      exact hof

theorem Holds.remove (h : s.Holds map) (key : K) :
    (s.remove key).1.Holds (Function.update map key none) ∧ (s.remove key).2 = map key := by
  rcases h.find_eq key with ⟨hmap, hfind⟩ | ⟨before, front, v, back, after, hchunks, hmap, hfind⟩
  · rw [SortedChunks.remove, hfind, hmap]
    refine ⟨?_, rfl⟩
    rw [← hmap, Function.update_eq_self]
    exact h
  · have hmaps := h.maps
    have hlen := h.len
    rw [iter_split hchunks, List.cons_append] at hmaps hlen
    have hold := h.chunk (front ++ (key, v) :: back) (by simp [hchunks])
    have hentry : (s.entryAt (before.length, front.length)).map Prod.snd = some v := by
      simp [entryAt, hchunks]
    have hchunk : (s.chunks[before.length]?.getD []).eraseIdx front.length = front ++ back := by
      rw [hchunks, getElem?_middle, Option.getD_some, eraseIdx_middle]
    rw [SortedChunks.remove, hfind]
    simp only [hchunk, hentry, hmap]
    refine ⟨?_, trivial⟩
    have hrest : ∀ chunks' : List (List (K × V)),
        chunks'.flatten = (before.flatten ++ front) ++ (back ++ after.flatten) →
        (∀ d ∈ chunks', d ≠ [] ∧ d.length ≤ chunkSize) →
        Holds ⟨chunks', s.len - 1⟩ (Function.update map key none) := by
      intro chunks' hflat hall
      refine ⟨hall, ?_, ?_⟩
      · rw [iter, hflat]
        exact hmaps.erase
      · rw [iter, hflat, hlen]
        simp only [List.length_append, List.length_cons]
        omega
    split_ifs with hempty
    · rw [hchunks, eraseIdx_middle]
      obtain ⟨rfl, rfl⟩ := List.append_eq_nil_iff.mp hempty
      refine hrest _ (by simp) ?_
      exact chunk_of_replaced [] h hchunks (by simp)
    · rw [hchunks, set_middle]
      refine hrest _ (by simp) ?_
      refine chunk_of_replaced [front ++ back] h hchunks fun d hd => ?_
      rw [List.mem_singleton.mp hd]
      refine ⟨hempty, ?_⟩
      have := hold.2
      simp only [List.length_append, List.length_cons] at this ⊢
      omega

theorem Holds.foldl_insert (h : s.Holds map) (entries : List (K × V)) :
    (entries.foldl (fun s e => (s.insert e.1 e.2).1) s).Holds
      (entries.foldl (fun (m : K → Option V) e => Function.update m e.1 (some e.2)) map) := by
  induction entries generalizing s map with
  | nil => exact h
  | cons e entries ih => exact ih (h.insert e.1 e.2).1

theorem foldl_update_of_sorted {entries : List (K × V)} (hsorted : Sorted entries)
    (map : K → Option V) (k : K) (v : V) :
    (entries.foldl (fun (m : K → Option V) e => Function.update m e.1 (some e.2)) map) k = some v ↔
      (k, v) ∈ entries ∨ (∀ e ∈ entries, e.1 ≠ k) ∧ map k = some v := by
  induction entries generalizing map with
  | nil => simp
  | cons e entries ih =>
    have hcons := List.pairwise_cons.mp hsorted
    rw [List.foldl_cons, ih hcons.2]
    by_cases hk : e.1 = k
    · subst hk
      have hlater : ∀ f ∈ entries, f.1 ≠ e.1 := fun f hf => (hcons.1 f hf).ne'
      have hnot : (e.1, v) ∉ entries := fun hmem => hlater _ hmem rfl
      rw [Function.update_self]
      constructor
      · rintro (hmem | ⟨-, hv⟩)
        · exact absurd hmem hnot
        · rw [← Option.some.inj hv]
          exact .inl (by simp)
      · rintro (hmem | ⟨hall, -⟩)
        · rcases List.mem_cons.mp hmem with heq | hmem
          · exact .inr ⟨hlater, by rw [← heq]⟩
          · exact absurd hmem hnot
        · exact absurd rfl (hall e (by simp))
    · rw [Function.update_of_ne (Ne.symm hk)]
      have hne : (k, v) ≠ e := fun heq => hk (by rw [← heq])
      rw [List.mem_cons, List.forall_mem_cons, or_iff_right hne, and_iff_right hk]

def overlay (other map : K → Option V) : K → Option V := fun k => (other k).or (map k)

theorem Holds.last_eq (h : s.Holds map) : s.chunks.getLast?.bind List.getLast? = s.iter.getLast? := by
  rcases List.eq_nil_or_concat s.chunks with hnil | ⟨init, c, hconcat⟩
  · simp [iter, hnil]
  · rw [List.concat_eq_append] at hconcat
    have hne := (h.chunk c (by simp [hconcat])).1
    rw [iter, hconcat, List.flatten_append, List.flatten_singleton,
      List.getLast?_append_of_ne_nil _ hne]
    simp

theorem Holds.first_eq (h : s.Holds map) : s.chunks.head?.bind List.head? = s.iter.head? := by
  cases hchunks : s.chunks with
  | nil => simp [iter, hchunks]
  | cons c rest =>
    have hne := (h.chunk c (by simp [hchunks])).1
    rw [iter, hchunks, List.flatten_cons, List.head?_append_of_ne_nil _ hne]
    simp

theorem Holds.below_of_pastTheEnd {map' : K → Option V} (h : s.Holds map) (h' : other.Holds map')
    (hpast : s.pastTheEnd other = true) : ∀ a ∈ s.iter, ∀ b ∈ other.iter, a.1 < b.1 := by
  intro a ha b hb
  obtain ⟨init, mine, hmine⟩ : ∃ init mine, s.iter = init ++ [mine] := by
    rcases List.eq_nil_or_concat s.iter with hnil | ⟨init, mine, hconcat⟩
    · simp [hnil] at ha
    · exact ⟨init, mine, by rw [hconcat, List.concat_eq_append]⟩
  obtain ⟨theirs, rest, htheirs⟩ : ∃ theirs rest, other.iter = theirs :: rest :=
    List.exists_cons_of_ne_nil (List.ne_nil_of_mem hb)
  have hlt : mine.1 < theirs.1 := by
    rw [pastTheEnd, h.last_eq, h'.first_eq, hmine, htheirs] at hpast
    simpa using hpast
  have hsorted := h.maps.sorted
  have hsorted' := h'.maps.sorted
  rw [hmine, Sorted, List.pairwise_append] at hsorted
  rw [htheirs, Sorted, List.pairwise_cons] at hsorted'
  have hle : a.1 ≤ mine.1 := by
    rw [hmine] at ha
    rcases List.mem_append.mp ha with ha | ha
    · exact (hsorted.2.2 a ha mine (by simp)).le
    · rw [List.mem_singleton.mp ha]
  have hge : theirs.1 ≤ b.1 := by
    rw [htheirs] at hb
    rcases List.mem_cons.mp hb with rfl | hb
    · exact le_rfl
    · exact (hsorted'.1 b hb).le
  exact hle.trans_lt (hlt.trans_le hge)

theorem Holds.append {map' : K → Option V} (h : s.Holds map) (h' : other.Holds map') :
    (s.append other).1.Holds (overlay map' map) ∧ (s.append other).2.Holds fun _ => none := by
  rw [SortedChunks.append]
  split_ifs with hzero hpast
  · have hnil : other.iter = [] := List.eq_nil_of_length_eq_zero (h'.len.symm.trans hzero)
    have hnone : map' = fun _ => none := by
      funext k
      exact h'.maps.get_of_absent (by simp [hnil])
    subst hnone
    exact ⟨h, h'⟩
  · refine ⟨?_, holds_new⟩
    have hbelow := h.below_of_pastTheEnd h' hpast
    refine ⟨fun c hc => ?_, ⟨?_, fun k v => ?_⟩, ?_⟩
    · rcases List.mem_append.mp hc with hc | hc
      · exact h.chunk c hc
      · exact h'.chunk c hc
    · rw [iter, List.flatten_append]
      exact List.pairwise_append.mpr ⟨h.maps.sorted, h'.maps.sorted, hbelow⟩
    · rw [iter, List.flatten_append, List.mem_append]
      change (k, v) ∈ s.iter ∨ (k, v) ∈ other.iter ↔ _
      rw [h.maps.mem_iff, h'.maps.mem_iff, overlay]
      cases hother : map' k with
      | none => simp
      | some w =>
        have hmem := (h'.maps.mem_iff k w).mpr hother
        have hnot : map k ≠ some v := fun hv =>
          lt_irrefl k (hbelow _ ((h.maps.mem_iff k v).mpr hv) _ hmem)
        simp [hnot]
    · rw [iter, List.flatten_append, List.length_append, h.len, h'.len]
      rfl
  · refine ⟨?_, holds_new⟩
    have hfold := h.foldl_insert other.chunks.flatten
    have hmap : (other.chunks.flatten.foldl (fun (m : K → Option V) e => Function.update m e.1 (some e.2)) map) =
        overlay map' map := by
      funext k
      refine Option.ext fun v => ?_
      have hsorted : Sorted other.chunks.flatten := h'.maps.sorted
      have hmem : (k, v) ∈ other.chunks.flatten ↔ map' k = some v := h'.maps.mem_iff k v
      rw [foldl_update_of_sorted hsorted, overlay, hmem]
      cases hother : map' k with
      | none =>
        have hall : ∀ e ∈ other.chunks.flatten, e.1 ≠ k := fun e he heq => by
          have := (h'.maps.mem_iff e.1 e.2).mp he
          rw [heq, hother] at this
          cases this
        simp only [reduceCtorEq, false_or, Option.none_or]
        exact and_iff_right hall
      | some w =>
        have hmem : (k, w) ∈ other.chunks.flatten := (h'.maps.mem_iff k w).mpr hother
        have hnot : ¬ ∀ e ∈ other.chunks.flatten, e.1 ≠ k := fun hall => hall _ hmem rfl
        simp only [hnot, false_and, or_false, Option.some_or]
    rw [hmap] at hfold
    exact hfold

/-- What can be made of empty maps, each with the finite map its history is. -/
inductive Reached : SortedChunks K V → (K → Option V) → Prop
  | new : Reached new fun _ => none
  | clear {s : SortedChunks K V} {map : K → Option V} : Reached s map → Reached s.clear fun _ => none
  | insert {s : SortedChunks K V} {map : K → Option V} (key : K) (v : V) : Reached s map →
      Reached (s.insert key v).1 (Function.update map key (some v))
  | remove {s : SortedChunks K V} {map : K → Option V} (key : K) : Reached s map →
      Reached (s.remove key).1 (Function.update map key none)
  | append {s other : SortedChunks K V} {map map' : K → Option V} : Reached s map →
      Reached other map' → Reached (s.append other).1 (overlay map' map)
  | emptied {s other : SortedChunks K V} {map map' : K → Option V} : Reached s map →
      Reached other map' → Reached (s.append other).2 fun _ => none

theorem Reached.holds (h : Reached s map) : s.Holds map := by
  induction h with
  | new => exact holds_new
  | clear _ _ => exact Holds.clear
  | insert key v _ ih => exact (ih.insert key v).1
  | remove key _ ih => exact (ih.remove key).1
  | append _ _ ih ih' => exact (ih.append ih').1
  | emptied _ _ ih ih' => exact (ih.append ih').2

/-- The chunks are non-empty, sorted, not too long, and each is below the next. -/
structure InOrder (chunks : List (List (K × V))) : Prop where
  chunk : ∀ c ∈ chunks, c ≠ [] ∧ c.length ≤ chunkSize ∧ Sorted c
  below : chunks.Pairwise fun c d => ∀ a ∈ c, ∀ b ∈ d, a.1 < b.1

theorem Holds.inOrder (h : s.Holds map) : InOrder s.chunks := by
  obtain ⟨hsorted, hbelow⟩ := List.pairwise_flatten.mp h.maps.sorted
  exact ⟨fun c hc => ⟨(h.chunk c hc).1, (h.chunk c hc).2, hsorted c hc⟩, hbelow⟩

/-- A map of sorted chunks answers as the finite map of its history, in the order of the keys. -/
theorem sortedChunks_ordered_map (s : SortedChunks K V) (map : K → Option V) (h : Reached s map) :
    (∀ key, s.get key = map key ∧ s.containsKey key = (map key).isSome) ∧
      (s.iter.Pairwise fun a b => a.1 < b.1) ∧ (∀ key v, (key, v) ∈ s.iter ↔ map key = some v) ∧
      s.len = s.iter.length ∧
      (∀ key v, (s.insert key v).2 = map key) ∧ (∀ key, (s.remove key).2 = map key) ∧
      InOrder s.chunks := by
  have hholds := h.holds
  exact ⟨fun key => ⟨hholds.get_eq key, hholds.containsKey_eq key⟩, hholds.maps.sorted,
    hholds.maps.mem_iff, hholds.len, fun key v => (hholds.insert key v).2,
    fun key => (hholds.remove key).2, hholds.inOrder⟩

/-- A map of three keys, one of them from another map. -/
theorem sortedChunks_ordered_map_three :
    ((((new : SortedChunks ℕ ℕ).insert 5 1).1.insert 3 2).1.append ((new.insert 4 7).1)).1.get 4 =
      some 7 :=
  ((sortedChunks_ordered_map _ _ (.append (.insert 3 2 (.insert 5 1 .new))
    (.insert 4 7 .new))).1 4).1

end SortedChunks

end WatchingZenoh
