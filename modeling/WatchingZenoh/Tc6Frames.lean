import Mathlib
import WatchingZenoh.Tc6

/-! What a receive call gives of the chunks that the device hands out. The device hands out one chunk
on every exchange that asks for one, and an exchange that fails loses its chunk. A frame under
assembly stays open across a failed exchange, so that the chunks behind the lost one are put to those
before it. -/

namespace WatchingZenoh.Tc6
open Procedures

/-- What the device hands out on one exchange. -/
structure Chunk (cps : ChunkSize) where
  payload : Vector UInt8 cps.bytes
  footer : Word
  deriving DecidableEq

section Chunks

variable {cps : ChunkSize}

def Chunk.data (c : Chunk cps) : Bool := Footer.dataValid c.footer

def Chunk.starts (c : Chunk cps) : Bool := c.data && Footer.startValid c.footer

def Chunk.ends (c : Chunk cps) : Bool := c.data && Footer.endValid c.footer

def Chunk.valid (c : Chunk cps) : Bytes :=
  if c.data then c.payload.toList.take (validLength cps c.footer) else []

/-- Consecutive chunks, from one that starts a frame to the one that ends it. -/
structure FrameRun (run : List (Chunk cps)) (frame : Bytes) : Prop where
  first : ∃ c, run.head? = some c ∧ c.starts = true
  last : ∃ c, run.getLast? = some c ∧ c.ends = true
  start : ∀ c ∈ run.tail, c.starts = false
  stop : ∀ c ∈ run.dropLast, c.ends = false
  bytes : frame = run.flatMap Chunk.valid

/-- Where the chunks handed out leave the frame under assembly: none is open, one is open with these
chunks, or a chunk of it was lost. -/
inductive Track (cps : ChunkSize)
  | shut
  | whole (run : List (Chunk cps))
  | broken
  deriving DecidableEq

/-- The next chunk, and whether the exchange that carried it succeeded. -/
def Track.step (t : Track cps) (handed : Chunk cps × Bool) : Track cps :=
  let c := handed.1
  if !c.data then
    match t with
    | .whole run => .whole (run ++ [c])
    | t => t
  else if !handed.2 then
    match t with
    | .shut => .shut
    | _ => .broken
  else if c.starts then (if c.ends then .shut else .whole [c])
  else
    match t with
    | .whole run => if c.ends then .shut else .whole (run ++ [c])
    | t => t

def trackOf (log : List (Chunk cps × Bool)) : Track cps := log.foldl Track.step .shut

/-- A chunk is received behind a lost one of its frame. -/
def Track.Joins (t : Track cps) (handed : Chunk cps × Bool) : Prop :=
  t = .broken ∧ handed.2 = true ∧ handed.1.data = true ∧ handed.1.starts = false

/-- No chunk is received behind a lost one of its frame: the next data chunk received starts a
frame. -/
def Unspliced (log : List (Chunk cps × Bool)) : Prop :=
  ∀ past handed rest, log = past ++ handed :: rest → ¬ (trackOf past).Joins handed

theorem trackOf_append (log : List (Chunk cps × Bool)) (handed : Chunk cps × Bool) :
    trackOf (log ++ [handed]) = (trackOf log).step handed := by
  rw [trackOf, List.foldl_append]
  rfl

theorem Unspliced.of_append {log more : List (Chunk cps × Bool)} (h : Unspliced (log ++ more)) :
    Unspliced log :=
  fun past handed rest hlog => h past handed (rest ++ more) (by rw [hlog]; simp)

structure OpenRun (log : List (Chunk cps × Bool)) (run : List (Chunk cps)) : Prop where
  tail : run <:+ log.map Prod.fst
  first : ∃ c, run.head? = some c ∧ c.starts = true
  start : ∀ c ∈ run.tail, c.starts = false
  stop : ∀ c ∈ run, c.ends = false

/-- The frame under assembly is the one of the chunks handed out, unless a chunk of it was lost. -/
def Assembled (log : List (Chunk cps × Bool)) (a : Assembly) : Track cps → Prop
  | .shut => a.opened = false ∧ a.overflow = false
  | .whole run => OpenRun log run ∧
      (a.overflow = true ∨ a.opened = true ∧ a.overflow = false ∧ a.bytes = run.flatMap Chunk.valid)
  | .broken => True

theorem OpenRun.append {log : List (Chunk cps × Bool)} {run : List (Chunk cps)}
    (h : OpenRun log run) {c : Chunk cps} (got : Bool) (hstart : c.starts = false)
    (hend : c.ends = false) : OpenRun (log ++ [(c, got)]) (run ++ [c]) := by
  obtain ⟨first, hfirst, hstarts⟩ := h.first
  have hne : run ≠ [] := by
    rintro rfl
    simp at hfirst
  refine ⟨?_, ⟨first, ?_, hstarts⟩, fun d hd => ?_, fun d hd => ?_⟩
  · obtain ⟨front, hfront⟩ := h.tail
    exact ⟨front, by rw [List.map_append, ← hfront]; simp⟩
  · rw [List.head?_append_of_ne_nil _ hne]
    exact hfirst
  · rw [List.tail_append_of_ne_nil hne] at hd
    rcases List.mem_append.mp hd with hd | hd
    · exact h.start d hd
    · rw [List.mem_singleton.mp hd]
      exact hstart
  · rcases List.mem_append.mp hd with hd | hd
    · exact h.stop d hd
    · rw [List.mem_singleton.mp hd]
      exact hend

theorem OpenRun.frameRun {log : List (Chunk cps × Bool)} {run : List (Chunk cps)}
    (h : OpenRun log run) {c : Chunk cps} (hstart : c.starts = false) (hend : c.ends = true) :
    FrameRun (run ++ [c]) ((run ++ [c]).flatMap Chunk.valid) := by
  obtain ⟨first, hfirst, hstarts⟩ := h.first
  have hne : run ≠ [] := by
    rintro rfl
    simp at hfirst
  refine ⟨⟨first, ?_, hstarts⟩, ⟨c, by simp, hend⟩, fun d hd => ?_, fun d hd => ?_, rfl⟩
  · rw [List.head?_append_of_ne_nil _ hne]
    exact hfirst
  · rw [List.tail_append_of_ne_nil hne] at hd
    rcases List.mem_append.mp hd with hd | hd
    · exact h.start d hd
    · rw [List.mem_singleton.mp hd]
      exact hstart
  · rw [List.dropLast_concat] at hd
    exact h.stop d hd

theorem Assembled.skip {log : List (Chunk cps × Bool)} {a : Assembly} {c : Chunk cps} {got : Bool}
    (h : Assembled log a (trackOf log)) (hskip : c.data = false ∨ got = false) :
    Assembled (log ++ [(c, got)]) a (trackOf (log ++ [(c, got)])) := by
  rw [trackOf_append]
  generalize trackOf log = t at *
  by_cases hdata : c.data = true
  · have hgot : got = false := hskip.resolve_left (by simp [hdata])
    subst hgot
    cases t with
    | shut =>
      simp only [Track.step, hdata, Bool.not_true, Bool.not_false, if_true]
      exact h
    | whole run => simp [Track.step, hdata, Assembled]
    | broken => simp [Track.step, hdata, Assembled]
  · rw [Bool.not_eq_true] at hdata
    cases t with
    | shut =>
      simp only [Track.step, hdata, Bool.not_false, if_true]
      exact h
    | whole run =>
      obtain ⟨hrun, hbytes⟩ := h
      simp only [Track.step, hdata, Bool.not_false, if_true]
      refine ⟨hrun.append got (by simp [Chunk.starts, hdata]) (by simp [Chunk.ends, hdata]), ?_⟩
      simpa [Chunk.valid, hdata] using hbytes
    | broken => simp [Track.step, hdata, Assembled]

def Completed (log : List (Chunk cps × Bool)) (frame : Bytes) : Prop :=
  ∃ run, run <:+: log.map Prod.fst ∧ FrameRun run frame

theorem Completed.append {log : List (Chunk cps × Bool)} {frame : Bytes} (h : Completed log frame)
    (more : List (Chunk cps × Bool)) : Completed (log ++ more) frame := by
  obtain ⟨run, hinside, hrun⟩ := h
  refine ⟨run, ?_, hrun⟩
  rw [List.map_append]
  exact hinside.trans (List.infix_append' [] _ _)

/-- A data chunk put to the bytes of an open frame: the bytes are those of the frame with it, and the
frame it completes is all of them. -/
theorem Assembly.chunk_of_open (a : Assembly) (c : Chunk cps) (room : ℕ) (base : Bytes)
    (hdata : c.data = true)
    (hopen : (a.begin c.footer).overflow = true ∨ (a.begin c.footer).opened = true ∧
      (a.begin c.footer).overflow = false ∧ (a.begin c.footer).bytes = base) :
    (c.ends = true → (a.chunk cps c.payload.toList c.footer room).1 = {} ∧
      ∀ frame, (a.chunk cps c.payload.toList c.footer room).2 = some frame →
        frame = base ++ c.valid) ∧
    (c.ends = false → (a.chunk cps c.payload.toList c.footer room).2 = none ∧
      ((a.chunk cps c.payload.toList c.footer room).1.overflow = true ∨
        (a.chunk cps c.payload.toList c.footer room).1.opened = true ∧
        (a.chunk cps c.payload.toList c.footer room).1.overflow = false ∧
        (a.chunk cps c.payload.toList c.footer room).1.bytes = base ++ c.valid)) := by
  have hends : c.ends = Footer.endValid c.footer := by
    simp only [Chunk.ends, hdata, Bool.true_and]
  have hvalid : c.valid = c.payload.toList.take (validLength cps c.footer) := by
    simp only [Chunk.valid, hdata, if_true]
  rw [hends, hvalid]
  unfold Assembly.chunk
  generalize a.begin c.footer = b at *
  by_cases hlong : rxFrameMax < b.bytes.length + validLength cps c.footer
  · constructor
    · intro hend
      rcases hopen with hover | ⟨hopened, hover, rfl⟩ <;> simp [*]
    · intro hend
      rcases hopen with hover | ⟨hopened, hover, rfl⟩ <;> simp [*]
  · rcases hopen with hover | ⟨hopened, hover, rfl⟩
    · constructor <;> intro hend <;> simp [hover, hend, hlong]
    · constructor
      · intro hend
        simp [hopened, hover, hend, hlong]
        grind
      · intro hend
        simp [hopened, hover, hend, hlong]

theorem Assembly.begin_of_starts (a : Assembly) {c : Chunk cps} (h : c.starts = true) :
    (a.begin c.footer).overflow = true ∨ (a.begin c.footer).opened = true ∧
      (a.begin c.footer).overflow = false ∧ (a.begin c.footer).bytes = [] := by
  have hstart : Footer.startValid c.footer = true := (Bool.and_eq_true_iff.mp h).2
  rw [Assembly.begin, if_pos hstart]
  by_cases hzero : Footer.startWordOffset c.footer = 0
  · exact .inr (by simp [hzero])
  · exact .inl (by simp [hzero])

theorem Assembly.begin_of_not_starts (a : Assembly) {c : Chunk cps} (hdata : c.data = true)
    (h : c.starts = false) : a.begin c.footer = a := by
  have hstart : Footer.startValid c.footer = false := by
    rw [Chunk.starts, hdata, Bool.true_and] at h
    exact h
  rw [Assembly.begin, hstart]
  rfl

theorem openRun_start {log : List (Chunk cps × Bool)} {c : Chunk cps} (hstart : c.starts = true)
    (hend : c.ends = false) : OpenRun (log ++ [(c, true)]) [c] where
  tail := ⟨log.map Prod.fst, by simp⟩
  first := ⟨c, rfl, hstart⟩
  start := fun d hd => by simp at hd
  stop := fun d hd => by rw [List.mem_singleton.mp hd]; exact hend

theorem frameRun_single {c : Chunk cps} (hstart : c.starts = true) (hend : c.ends = true) :
    FrameRun [c] c.valid where
  first := ⟨c, rfl, hstart⟩
  last := ⟨c, rfl, hend⟩
  start := fun d hd => by simp at hd
  stop := fun d hd => by simp at hd
  bytes := by simp

theorem Assembled.take {log : List (Chunk cps × Bool)} {a : Assembly} {c : Chunk cps} {room : ℕ}
    (h : Assembled log a (trackOf log)) (hdata : c.data = true)
    (hjoins : ¬ (trackOf log).Joins (c, true)) :
    Assembled (log ++ [(c, true)]) (a.chunk cps c.payload.toList c.footer room).1
        (trackOf (log ++ [(c, true)])) ∧
      ∀ frame, (a.chunk cps c.payload.toList c.footer room).2 = some frame →
        Completed (log ++ [(c, true)]) frame := by
  have hmap : (log ++ [(c, true)]).map Prod.fst = log.map Prod.fst ++ [c] := by simp
  rw [trackOf_append]
  by_cases hstart : c.starts = true
  · obtain ⟨hends, hgoes⟩ := a.chunk_of_open c room [] hdata (a.begin_of_starts hstart)
    cases hend : c.ends with
    | true =>
      obtain ⟨hempty, hframe⟩ := hends hend
      have hstep : (trackOf log).step (c, true) = .shut := by
        simp [Track.step, hdata, hstart, hend]
      rw [hstep, hempty]
      refine ⟨⟨rfl, rfl⟩, fun frame hsome => ?_⟩
      rw [hframe frame hsome]
      exact ⟨[c], ⟨log.map Prod.fst, [], by rw [hmap]; simp⟩, frameRun_single hstart hend⟩
    | false =>
      obtain ⟨hnone, hopen⟩ := hgoes hend
      have hstep : (trackOf log).step (c, true) = .whole [c] := by
        simp [Track.step, hdata, hstart, hend]
      rw [hstep, hnone]
      refine ⟨⟨openRun_start hstart hend, ?_⟩, fun frame hsome => by simp at hsome⟩
      simpa using hopen
  · rw [Bool.not_eq_true] at hstart
    have hbegin := a.begin_of_not_starts hdata hstart
    generalize trackOf log = t at *
    cases t with
    | shut =>
      have hstep : Track.shut.step (c, true) = .shut := by simp [Track.step, hdata, hstart]
      have hchunk : a.chunk cps c.payload.toList c.footer room = (a, none) := by
        simp [Assembly.chunk, hbegin, h.1, h.2]
      rw [hstep, hchunk]
      exact ⟨h, fun frame hsome => by simp at hsome⟩
    | broken => exact absurd ⟨rfl, rfl, hdata, hstart⟩ hjoins
    | whole run =>
      obtain ⟨hrun, hopen⟩ := h
      obtain ⟨hends, hgoes⟩ := a.chunk_of_open c room (run.flatMap Chunk.valid) hdata
        (by rw [hbegin]; exact hopen)
      have hbytes : run.flatMap Chunk.valid ++ c.valid = (run ++ [c]).flatMap Chunk.valid := by simp
      rw [hbytes] at hends hgoes
      cases hend : c.ends with
      | true =>
        obtain ⟨hempty, hframe⟩ := hends hend
        have hstep : (Track.whole run).step (c, true) = .shut := by
          simp [Track.step, hdata, hstart, hend]
        rw [hstep, hempty]
        refine ⟨⟨rfl, rfl⟩, fun frame hsome => ?_⟩
        rw [hframe frame hsome]
        obtain ⟨front, hfront⟩ := hrun.tail
        exact ⟨run ++ [c], ⟨front, [], by rw [hmap, ← hfront]; simp⟩, hrun.frameRun hstart hend⟩
      | false =>
        obtain ⟨hnone, hopen'⟩ := hgoes hend
        have hstep : (Track.whole run).step (c, true) = .whole (run ++ [c]) := by
          simp [Track.step, hdata, hstart, hend]
        rw [hstep, hnone]
        exact ⟨⟨hrun.append true hstart hend, hopen'⟩, fun frame hsome => by simp at hsome⟩

end Chunks

end WatchingZenoh.Tc6
