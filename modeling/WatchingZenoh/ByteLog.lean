import Mathlib
import WatchingZenoh.Text

/-! The log of byte runs: bytes go into chunks of a fixed capacity, a run lies in one chunk, and whole
chunks are released from the front. A position counts chunk capacities from the first chunk ever
started, so it names the same byte for as long as the byte is held. -/

namespace WatchingZenoh

/-- `slice::get(from..to)`. -/
def sliceGet (bytes : Bytes) (start stop : ℕ) : Option Bytes :=
  if start ≤ stop ∧ stop ≤ bytes.length then some ((bytes.take stop).drop start) else none

theorem sliceGet_one (bytes : Bytes) (i : ℕ) :
    sliceGet bytes i (i + 1) = (bytes[i]?).map ([·]) := by
  unfold sliceGet
  by_cases h : i < bytes.length
  · rw [if_pos ⟨by omega, h⟩, List.getElem?_eq_getElem h, Option.map_some, List.drop_take,
      Nat.add_sub_cancel_left, List.take_one_drop_eq_of_lt_length h]
    rfl
  · rw [if_neg (by omega), List.getElem?_eq_none (by omega), Option.map_none]

structure LogChunk where
  start : ℕ
  bytes : Bytes
  capacity : ℕ

namespace LogChunk

def stop (c : LogChunk) : ℕ := c.start + c.capacity

def top (c : LogChunk) : ℕ := c.start + c.bytes.length

end LogChunk

structure ByteLog where
  chunks : List LogChunk
  nextChunkAt : ℕ
  lastCapacity : ℕ

namespace ByteLog

def firstChunk : ℕ := 256

def maxChunk : ℕ := 64 * 1024

def empty : ByteLog := ⟨[], 0, 0⟩

/-- A chunk for a run that does not fit in the last one. -/
def startChunk (log : ByteLog) (run : Bytes) : ByteLog :=
  let capacity := match log.lastCapacity with
    | 0 => firstChunk
    | last => min (last * 2) maxChunk
  let chunk : LogChunk := ⟨log.nextChunkAt, [], max capacity run.length⟩
  ⟨log.chunks ++ [chunk], chunk.stop, capacity⟩

def fits (log : ByteLog) (run : Bytes) : Bool :=
  log.chunks.getLast?.any fun last => last.capacity - last.bytes.length ≥ run.length

def append (log : ByteLog) (run : Bytes) : ByteLog × ℕ :=
  let log := if log.fits run then log else log.startChunk run
  match log.chunks.getLast? with
  | some last =>
    ({ log with chunks := log.chunks.dropLast ++ [{ last with bytes := last.bytes ++ run }] },
      last.top)
  | none => (log, 0)

def get (log : ByteLog) (pos len : ℕ) : Option Bytes := do
  let chunk ← log.chunks[(log.chunks.takeWhile fun c => c.stop ≤ pos).length]?
  if chunk.start ≤ pos then sliceGet chunk.bytes (pos - chunk.start) (pos - chunk.start + len)
  else none

def releaseBefore (log : ByteLog) (pos : ℕ) : ByteLog :=
  { log with chunks := log.chunks.dropWhile fun c => c.top ≤ pos }

/-- The chunks lie one after another, none longer than its capacity. -/
structure Laid (log : ByteLog) : Prop where
  apart : log.chunks.Pairwise fun c d => c.stop ≤ d.start
  fits : ∀ c ∈ log.chunks, c.bytes.length ≤ c.capacity
  below : ∀ c ∈ log.chunks, c.stop ≤ log.nextChunkAt

/-- The byte at a position, as `get` of one byte reads it. -/
def byteAt (log : ByteLog) (pos : ℕ) (b : UInt8) : Prop :=
  ∃ c ∈ log.chunks, c.start ≤ pos ∧ c.bytes[pos - c.start]? = some b

/-- One past the last byte ever logged, at least. -/
def top (log : ByteLog) : ℕ := (log.chunks.getLast?.map LogChunk.top).getD log.nextChunkAt

variable {log : ByteLog} {pos : ℕ} {b : UInt8}

theorem laid_empty : empty.Laid := ⟨.nil, by simp [empty], by simp [empty]⟩

theorem get_of_byteAt (h : log.Laid) (hb : log.byteAt pos b) : log.get pos 1 = some [b] := by
  obtain ⟨c, hc, hstart, hget⟩ := hb
  obtain ⟨before, after, hsplit⟩ := List.append_of_mem hc
  have hlen := h.fits c hc
  have hpos : pos - c.start < c.bytes.length := (List.getElem?_eq_some_iff.mp hget).1
  have hbefore : ∀ d ∈ before, d.stop ≤ pos := by
    intro d hd
    have hapart := h.apart
    rw [hsplit, List.pairwise_append] at hapart
    exact (hapart.2.2 d hd c (by simp)).trans hstart
  have hhere : ¬ c.stop ≤ pos := by
    simp only [LogChunk.stop]
    omega
  have htake : log.chunks.takeWhile (fun d => d.stop ≤ pos) = before := by
    rw [hsplit, List.takeWhile_append_of_pos fun d hd => by simpa using hbefore d hd,
      List.takeWhile_cons_of_neg (by simpa using hhere), List.append_nil]
  have hchunk : log.chunks[before.length]? = some c := by simp [hsplit]
  simp only [get, htake, hchunk, Option.bind_eq_bind, Option.bind_some, if_pos hstart,
    sliceGet_one, hget, Option.map_some]

theorem Laid.startChunk (h : log.Laid) (run : Bytes) : (log.startChunk run).Laid := by
  refine ⟨?_, ?_, ?_⟩
  · simp only [ByteLog.startChunk]
    refine List.pairwise_append.mpr ⟨h.apart, List.pairwise_singleton _ _, fun c hc d hd => ?_⟩
    cases List.mem_singleton.mp hd
    exact h.below c hc
  · intro c hc
    simp only [ByteLog.startChunk, List.mem_append, List.mem_singleton] at hc
    rcases hc with hc | rfl
    · exact h.fits c hc
    · simp
  · intro c hc
    simp only [ByteLog.startChunk, List.mem_append, List.mem_singleton] at hc ⊢
    rcases hc with hc | rfl
    · exact (h.below c hc).trans (Nat.le_add_right _ _)
    · exact le_rfl

theorem exists_last (h : log.Laid) (run : Bytes) :
    ∃ (before : List LogChunk) (last : LogChunk),
      (if log.fits run then log else log.startChunk run).chunks = before ++ [last] ∧
      (if log.fits run then log else log.startChunk run).Laid ∧
      last.bytes.length + run.length ≤ last.capacity ∧ log.top ≤ last.top ∧
      ∀ c ∈ log.chunks, c ∈ before ++ [last] := by
  by_cases hfits : log.fits run
  · rw [if_pos hfits]
    obtain ⟨last, hlast, hroom⟩ := (Option.any_eq_true _ _).mp hfits
    obtain ⟨before, hsplit⟩ := List.getLast?_eq_some_iff.mp hlast
    have hcap := h.fits last (by simp [hsplit])
    refine ⟨before, last, hsplit, h, ?_, ?_, fun c hc => hsplit ▸ hc⟩
    · simp only [ge_iff_le, decide_eq_true_eq] at hroom
      omega
    · simp [top, hlast]
  · rw [if_neg hfits]
    refine ⟨log.chunks, _, rfl, h.startChunk run, by simp, ?_, fun c hc => by simp [hc]⟩
    simp only [top]
    cases hlast : log.chunks.getLast? with
    | none => simp [LogChunk.top]
    | some last =>
      obtain ⟨before, hsplit⟩ := List.getLast?_eq_some_iff.mp hlast
      have hmem : last ∈ log.chunks := by simp [hsplit]
      have := h.below last hmem
      have := h.fits last hmem
      simp only [Option.map_some, Option.getD_some, LogChunk.top, LogChunk.stop] at *
      simp
      omega

/-- What `append` does: the bytes held stay, the run stands at the position answered, and that
position is past every byte logged before. -/
theorem append_spec (h : log.Laid) (run : Bytes) :
    (log.append run).1.Laid ∧
    (∀ pos b, log.byteAt pos b → (log.append run).1.byteAt pos b) ∧
    (∀ i b, run[i]? = some b → (log.append run).1.byteAt ((log.append run).2 + i) b) ∧
    log.top ≤ (log.append run).2 ∧ (log.append run).1.top = (log.append run).2 + run.length := by
  obtain ⟨before, last, hsplit, hlaid, hroom, htop, hkeep⟩ := exists_last h run
  have happend : log.append run =
      ({ (if log.fits run then log else log.startChunk run) with
        chunks := before ++ [{ last with bytes := last.bytes ++ run }] }, last.top) := by
    simp [append, hsplit]
  rw [happend]
  have hstops : ({ last with bytes := last.bytes ++ run } : LogChunk).stop = last.stop := rfl
  refine ⟨⟨?_, fun c hc => ?_, fun c hc => ?_⟩, fun pos b hb => ?_, fun i b hi => ?_, htop, ?_⟩
  · have hapart := hlaid.apart
    rw [hsplit, List.pairwise_append] at hapart
    refine List.pairwise_append.mpr ⟨hapart.1, List.pairwise_singleton _ _, fun c hc d hd => ?_⟩
    cases List.mem_singleton.mp hd
    exact hapart.2.2 c hc last (by simp)
  · rcases List.mem_append.mp hc with hc | hc
    · exact hlaid.fits c (by simp [hsplit, hc])
    · cases List.mem_singleton.mp hc
      simpa using hroom
  · rcases List.mem_append.mp hc with hc | hc
    · exact hlaid.below c (by simp [hsplit, hc])
    · cases List.mem_singleton.mp hc
      exact hlaid.below last (by simp [hsplit])
  · obtain ⟨c, hc, hstart, hget⟩ := hb
    rcases List.mem_append.mp (hkeep c hc) with hc | hc
    · exact ⟨c, by simp [hc], hstart, hget⟩
    · cases List.mem_singleton.mp hc
      refine ⟨{ last with bytes := last.bytes ++ run }, by simp, hstart, ?_⟩
      rw [List.getElem?_append_left (List.getElem?_eq_some_iff.mp hget).1, hget]
  · refine ⟨{ last with bytes := last.bytes ++ run }, by simp, ?_, ?_⟩
    · simp only [LogChunk.top]
      omega
    · have hidx : last.top + i - last.start = last.bytes.length + i := by
        simp only [LogChunk.top]
        omega
      simp only [hidx]
      rw [List.getElem?_append_right (by omega), Nat.add_sub_cancel_left, hi]
  · simp [top, LogChunk.top, add_assoc]

theorem releaseBefore_spec (h : log.Laid) (cut : ℕ) :
    (log.releaseBefore cut).Laid ∧
    (∀ pos b, cut ≤ pos → log.byteAt pos b → (log.releaseBefore cut).byteAt pos b) ∧
    log.top ≤ (log.releaseBefore cut).top := by
  obtain ⟨before, hsplit⟩ : ∃ before, log.chunks = before ++ (log.releaseBefore cut).chunks :=
    ⟨_, (List.takeWhile_append_dropWhile).symm⟩
  have hsub : ∀ c ∈ (log.releaseBefore cut).chunks, c ∈ log.chunks := fun c hc => by
    rw [hsplit]
    exact List.mem_append_right _ hc
  refine ⟨⟨?_, fun c hc => h.fits c (hsub c hc), fun c hc => h.below c (hsub c hc)⟩,
    fun pos b hpos hb => ?_, ?_⟩
  · have hapart := h.apart
    rw [hsplit] at hapart
    exact (List.pairwise_append.mp hapart).2.1
  · obtain ⟨c, hc, hstart, hget⟩ := hb
    refine ⟨c, ?_, hstart, hget⟩
    have hlt := (List.getElem?_eq_some_iff.mp hget).1
    rw [← List.takeWhile_append_dropWhile (p := fun c : LogChunk => decide (c.top ≤ cut))
      (l := log.chunks)] at hc
    refine (List.mem_append.mp hc).resolve_left fun hmem => ?_
    have hall : c.top ≤ cut := by simpa using List.mem_takeWhile_imp hmem
    simp only [LogChunk.top] at hall
    omega
  · cases hlast : (log.releaseBefore cut).chunks.getLast? with
    | some last =>
      have hlast' : log.chunks.getLast? = some last := by
        rw [hsplit, List.getLast?_append, hlast]
        rfl
      simp [top, hlast, hlast']
    | none =>
      have hnext : (log.releaseBefore cut).nextChunkAt = log.nextChunkAt := rfl
      simp only [top, hlast, hnext, Option.map_none, Option.getD_none]
      cases hl : log.chunks.getLast? with
      | none => simp
      | some last =>
        obtain ⟨front, hfront⟩ := List.getLast?_eq_some_iff.mp hl
        have hmem : last ∈ log.chunks := by simp [hfront]
        have := h.below last hmem
        have := h.fits last hmem
        simp only [Option.map_some, Option.getD_some, LogChunk.top, LogChunk.stop] at *
        omega

end ByteLog

end WatchingZenoh
