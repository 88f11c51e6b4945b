import Mathlib
import WatchingZenoh.ByteLog
import WatchingZenoh.Library.Steps

/-! Runs of appends and releases on a byte log. A run that is not empty is read back at its position
for as long as no release is past it. An empty run is read back only while some chunk has its
position: one that is logged at the very end of a full chunk belongs to no chunk until another is
started, and a release at its position drops the chunk it ended. -/

namespace WatchingZenoh.ByteLog

variable {log : ByteLog}

def covers (log : ByteLog) (pos : ℕ) : Prop := ∃ c ∈ log.chunks, c.start ≤ pos ∧ pos < c.stop

theorem get_eq_some_iff (h : log.Laid) {pos len : ℕ} {bytes : Bytes} :
    log.get pos len = some bytes ↔ ∃ c ∈ log.chunks, c.start ≤ pos ∧ pos < c.stop ∧
      sliceGet c.bytes (pos - c.start) (pos - c.start + len) = some bytes := by
  constructor
  · intro hget
    rw [get, Option.bind_eq_bind, Option.bind_eq_some_iff] at hget
    obtain ⟨c, hc, hread⟩ := hget
    have hsplit : log.chunks.takeWhile (fun c => decide (c.stop ≤ pos)) ++
        log.chunks.dropWhile (fun c => decide (c.stop ≤ pos)) = log.chunks :=
      List.takeWhile_append_dropWhile
    have hhead : (log.chunks.dropWhile fun c => decide (c.stop ≤ pos))[0]? = some c := by
      rw [← hc]
      conv_rhs => rw [← hsplit]
      rw [List.getElem?_append_right (by rw [hsplit])]
      congr 1
      rw [hsplit]
      omega
    have hpast : ¬ c.stop ≤ pos := by
      have hnot := List.head?_dropWhile_not (fun c : LogChunk => decide (c.stop ≤ pos)) log.chunks
      rw [List.head?_eq_getElem?, hhead] at hnot
      simpa using hnot
    split_ifs at hread with hstart
    exact ⟨c, List.mem_of_getElem? hc, hstart, Nat.lt_of_not_le hpast, hread⟩
  · rintro ⟨c, hc, hstart, hstop, hread⟩
    obtain ⟨before, after, hsplit⟩ := List.append_of_mem hc
    have hbefore : ∀ d ∈ before, d.stop ≤ pos := by
      intro d hd
      have hapart := h.apart
      rw [hsplit, List.pairwise_append] at hapart
      exact (hapart.2.2 d hd c (by simp)).trans hstart
    have htake : log.chunks.takeWhile (fun d => d.stop ≤ pos) = before := by
      rw [hsplit, List.takeWhile_append_of_pos fun d hd => by simpa using hbefore d hd,
        List.takeWhile_cons_of_neg (by simpa using Nat.not_le.mpr hstop), List.append_nil]
    have hchunk : log.chunks[before.length]? = some c := by simp [hsplit]
    simp only [get, htake, hchunk, Option.bind_eq_bind, Option.bind_some, if_pos hstart, hread]

/-- The run lies in one chunk at its position. -/
def Stands (log : ByteLog) (pos : ℕ) (run : Bytes) : Prop :=
  ∃ c ∈ log.chunks, c.start ≤ pos ∧ ∃ front back, c.bytes = front ++ run ++ back ∧
    front.length = pos - c.start

theorem get_of_stands (h : log.Laid) {pos : ℕ} {run : Bytes} (hne : run ≠ [])
    (hstands : log.Stands pos run) : log.get pos run.length = some run := by
  obtain ⟨c, hc, hstart, front, back, hbytes, hfront⟩ := hstands
  have hfits := h.fits c hc
  have hlen : c.bytes.length = front.length + run.length + back.length := by
    rw [hbytes, List.length_append, List.length_append]
  have hpos := List.length_pos_iff.mpr hne
  refine (get_eq_some_iff h).mpr ⟨c, hc, hstart, by rw [LogChunk.stop]; omega, ?_⟩
  rw [sliceGet, if_pos ⟨by omega, by omega⟩, hbytes, ← hfront, ← List.length_append,
    List.take_left, List.drop_left]

theorem exists_append (h : log.Laid) (run : Bytes) :
    ∃ (before : List LogChunk) (last : LogChunk),
      (log.append run).1.chunks = before ++ [{ last with bytes := last.bytes ++ run }] ∧
      (log.append run).2 = last.top ∧
      (∀ c ∈ log.chunks, c ∈ before ++ [last]) ∧
      (∀ c ∈ before ++ [last], c ∈ log.chunks ∨ c.bytes = [] ∧ c.start = log.nextChunkAt) ∧
      log.nextChunkAt ≤ (log.append run).1.nextChunkAt := by
  obtain ⟨before, last, hsplit, -, -, -, hkeep⟩ := exists_last h run
  have happend : log.append run =
      ({ (if log.fits run then log else log.startChunk run) with
        chunks := before ++ [{ last with bytes := last.bytes ++ run }] }, last.top) := by
    simp [append, hsplit]
  rw [happend]
  refine ⟨before, last, rfl, rfl, hkeep, fun c hc => ?_, ?_⟩
  · rw [← hsplit] at hc
    split_ifs at hc
    · exact .inl hc
    · rcases List.mem_append.mp hc with hc | hc
      · exact .inl hc
      · rw [List.mem_singleton.mp hc]
        exact .inr ⟨rfl, rfl⟩
  · split_ifs
    · exact le_rfl
    · exact Nat.le_add_right _ _

theorem top_le_next (h : log.Laid) : log.top ≤ log.nextChunkAt := by
  rw [top]
  cases hlast : log.chunks.getLast? with
  | none => exact le_rfl
  | some last =>
    have hmem := List.mem_of_getLast? hlast
    have hfits := h.fits last hmem
    have hbelow := h.below last hmem
    simp only [Option.map_some, Option.getD_some, LogChunk.top, LogChunk.stop] at *
    omega

inductive Op
  | append (run : Bytes)
  | releaseBefore (pos : ℕ)

/-- A log with what was done to it: the runs logged with their positions, those of them that no
release was past, and the chunks released. -/
structure History where
  log : ByteLog
  logged : List (ℕ × Bytes)
  live : List (ℕ × Bytes)
  released : List LogChunk

def History.start : History := ⟨empty, [], [], []⟩

def History.step (s : History) : Op → History
  | .append run =>
    let entry := ((s.log.append run).2, run)
    ⟨(s.log.append run).1, s.logged ++ [entry], s.live ++ [entry], s.released⟩
  | .releaseBefore pos =>
    ⟨s.log.releaseBefore pos, s.logged, s.live.filter fun entry => pos ≤ entry.1,
      s.released ++ s.log.chunks.takeWhile fun c => c.top ≤ pos⟩

def History.run (ops : List Op) : History := ops.foldl History.step .start

/-- What holds between the log and what was done to it. -/
structure History.Kept (s : History) : Prop where
  laid : s.log.Laid
  rises : s.logged.Pairwise fun a b => a.1 + a.2.length ≤ b.1
  below : ∀ entry ∈ s.logged, entry.1 + entry.2.length ≤ s.log.top
  sub : ∀ entry ∈ s.live, entry ∈ s.logged
  stands : ∀ entry ∈ s.live, entry.2 ≠ [] → s.log.Stands entry.1 entry.2
  reach : ∀ entry ∈ s.live, ∀ c ∈ s.log.chunks, c.start ≤ entry.1 → entry.1 < c.stop →
    entry.1 ≤ c.top
  gone : ∀ r ∈ s.released, r.stop ≤ s.log.nextChunkAt ∧ ∀ c ∈ s.log.chunks, r.stop ≤ c.start

theorem History.kept_start : History.start.Kept :=
  ⟨laid_empty, .nil, by simp [start], by simp [start], by simp [start], by simp [start],
    by simp [start]⟩

theorem History.Kept.append {s : History} (h : s.Kept) (run : Bytes) :
    (s.step (.append run)).Kept := by
  obtain ⟨hlaid, -, -, hpast, htop⟩ := append_spec h.laid run
  obtain ⟨before, last, hchunks, hat, hkeep, hnew, hnext⟩ := exists_append h.laid run
  have hgrown : ∀ c ∈ (s.log.append run).1.chunks, ∃ d, (d ∈ s.log.chunks ∨ d.bytes = [] ∧
      d.start = s.log.nextChunkAt) ∧ c.start = d.start ∧ c.stop = d.stop ∧ d.top ≤ c.top := by
    intro c hc
    rw [hchunks] at hc
    rcases List.mem_append.mp hc with hc | hc
    · exact ⟨c, hnew c (by simp [hc]), rfl, rfl, le_rfl⟩
    · rw [List.mem_singleton.mp hc]
      refine ⟨last, hnew last (by simp), rfl, rfl, ?_⟩
      simp only [LogChunk.top, List.length_append]
      omega
  have hlast : (⟨last.start, last.bytes ++ run, last.capacity⟩ : LogChunk) ∈
      (s.log.append run).1.chunks := by
    rw [hchunks]
    simp
  refine ⟨hlaid, ?_, ?_, ?_, ?_, ?_, ?_⟩
  · refine List.pairwise_append.mpr ⟨h.rises, List.pairwise_singleton _ _, fun a ha b hb => ?_⟩
    rw [List.mem_singleton.mp hb]
    exact (h.below a ha).trans hpast
  · intro entry hentry
    rcases List.mem_append.mp hentry with hmem | hmem
    · have hle := h.below entry hmem
      have htop' : (s.step (.append run)).log.top = (s.log.append run).2 + run.length := htop
      omega
    · rw [List.mem_singleton.mp hmem]
      exact htop.ge
  · intro entry hentry
    rcases List.mem_append.mp hentry with hmem | hmem
    · exact List.mem_append_left _ (h.sub entry hmem)
    · exact List.mem_append_right _ hmem
  · intro entry hentry hne
    rcases List.mem_append.mp hentry with hmem | hmem
    · obtain ⟨c, hc, hstart, front, back, hbytes, hfront⟩ := h.stands entry hmem hne
      rcases List.mem_append.mp (hkeep c hc) with hc' | hc'
      · refine ⟨c, ?_, hstart, front, back, hbytes, hfront⟩
        change c ∈ (s.log.append run).1.chunks
        rw [hchunks]
        exact List.mem_append_left _ hc'
      · rw [List.mem_singleton.mp hc'] at hstart hbytes hfront
        refine ⟨_, hlast, hstart, front, back ++ run, ?_, hfront⟩
        simp only [hbytes, List.append_assoc]
    · rw [List.mem_singleton.mp hmem]
      refine ⟨_, hlast, ?_, last.bytes, [], by simp, ?_⟩
      · simp only [hat, LogChunk.top]
        omega
      · simp only [hat, LogChunk.top]
        omega
  · intro entry hentry c hc hstart hstop
    rcases List.mem_append.mp hentry with hmem | hmem
    · obtain ⟨d, hd, hstart', hstop', htops⟩ := hgrown c hc
      refine le_trans ?_ htops
      rw [hstart'] at hstart
      rw [hstop'] at hstop
      rcases hd with hd | ⟨hempty, hnextAt⟩
      · exact h.reach entry hmem d hd hstart hstop
      · have hle := (h.below entry (h.sub entry hmem)).trans (top_le_next h.laid)
        rw [LogChunk.top]
        omega
    · -- The run is logged at the end of the last chunk, which no other chunk has.
      have hentry' : entry.1 = last.top := by rw [List.mem_singleton.mp hmem, hat]
      have hapart := hlaid.apart
      change c ∈ (s.log.append run).1.chunks at hc
      rw [hchunks] at hc hapart
      rcases List.mem_append.mp hc with hc | hc
      · have hle : c.stop ≤ last.start :=
          (List.pairwise_append.mp hapart).2.2 c hc ⟨last.start, last.bytes ++ run, last.capacity⟩
            (by simp)
        rw [hentry', LogChunk.top] at hstop
        omega
      · rw [hentry', List.mem_singleton.mp hc]
        simp only [LogChunk.top, List.length_append]
        omega
  · intro r hr
    obtain ⟨hbelow, hheld⟩ := h.gone r hr
    refine ⟨hbelow.trans hnext, fun c hc => ?_⟩
    obtain ⟨d, hd, hstart', -⟩ := hgrown c hc
    rw [hstart']
    rcases hd with hd | ⟨-, hnextAt⟩
    · exact hheld d hd
    · rw [hnextAt]
      exact hbelow

theorem History.Kept.releaseBefore {s : History} (h : s.Kept) (pos : ℕ) :
    (s.step (.releaseBefore pos)).Kept := by
  obtain ⟨hlaid, -, htop⟩ := releaseBefore_spec h.laid pos
  have hsplit : s.log.chunks.takeWhile (fun c => decide (c.top ≤ pos)) ++
      (s.log.releaseBefore pos).chunks = s.log.chunks := List.takeWhile_append_dropWhile
  have hsub : ∀ c ∈ (s.log.releaseBefore pos).chunks, c ∈ s.log.chunks := fun c hc => by
    rw [← hsplit]
    exact List.mem_append_right _ hc
  refine ⟨hlaid, h.rises, fun entry hentry => (h.below entry hentry).trans htop,
    fun entry hentry => h.sub entry (List.mem_of_mem_filter hentry), ?_, ?_, ?_⟩
  · intro entry hentry hne
    obtain ⟨hmem, hpos⟩ := List.mem_filter.mp hentry
    rw [decide_eq_true_eq] at hpos
    obtain ⟨c, hc, hstart, front, back, hbytes, hfront⟩ := h.stands entry hmem hne
    refine ⟨c, ?_, hstart, front, back, hbytes, hfront⟩
    rw [← hsplit] at hc
    refine (List.mem_append.mp hc).resolve_left fun hgone => ?_
    have htops : c.top ≤ pos := by simpa using List.mem_takeWhile_imp hgone
    have hlen := List.length_pos_iff.mpr hne
    rw [LogChunk.top, hbytes, List.length_append, List.length_append] at htops
    omega
  · intro entry hentry c hc
    exact h.reach entry (List.mem_of_mem_filter hentry) c (hsub c hc)
  · intro r hr
    rcases List.mem_append.mp hr with hr | hr
    · obtain ⟨hbelow, hheld⟩ := h.gone r hr
      exact ⟨hbelow, fun c hc => hheld c (hsub c hc)⟩
    · have hmem : r ∈ s.log.chunks := by
        rw [← hsplit]
        exact List.mem_append_left _ hr
      have hapart := h.laid.apart
      rw [← hsplit] at hapart
      exact ⟨h.laid.below r hmem, fun c hc => (List.pairwise_append.mp hapart).2.2 r hr c hc⟩

theorem History.kept_run (ops : List Op) : (History.run ops).Kept := by
  refine Steps.foldl_keeps (P := fun _ (s : History) => s.Kept) ?_ ops [] kept_start
  intro _ s op h
  cases op with
  | append run => exact h.append run
  | releaseBefore pos => exact h.releaseBefore pos

/-- A logged run is read back exactly where it is not empty or some chunk still has its position; the
positions of runs that are not empty rise; and no byte of a released chunk is read. -/
theorem logged_read_back_iff (ops : List Op) :
    (∀ entry ∈ (History.run ops).live,
      ((History.run ops).log.get entry.1 entry.2.length = some entry.2 ↔
        entry.2 ≠ [] ∨ (History.run ops).log.covers entry.1)) ∧
    (((History.run ops).logged.filter fun entry => entry.2 ≠ []).map Prod.fst).Pairwise (· < ·) ∧
    ∀ pos len bytes, (History.run ops).log.get pos len = some bytes →
      ∀ i < len, ∀ r ∈ (History.run ops).released, ¬ (r.start ≤ pos + i ∧ pos + i < r.stop) := by
  have h := History.kept_run ops
  refine ⟨fun entry hentry => ?_, ?_, fun pos len bytes hget i hi r hr hin => ?_⟩
  · by_cases hne : entry.2 = []
    · simp only [hne, ne_eq, not_true_eq_false, false_or, List.length_nil]
      rw [get_eq_some_iff h.laid, covers]
      constructor
      · rintro ⟨c, hc, hstart, hstop, -⟩
        exact ⟨c, hc, hstart, hstop⟩
      · rintro ⟨c, hc, hstart, hstop⟩
        have htop := h.reach entry hentry c hc hstart hstop
        rw [LogChunk.top] at htop
        refine ⟨c, hc, hstart, hstop, ?_⟩
        rw [sliceGet, if_pos ⟨by omega, by omega⟩, Nat.add_zero, List.drop_take_self]
    · exact iff_of_true (get_of_stands h.laid hne (h.stands entry hentry hne)) (.inl hne)
  · refine List.pairwise_map.mpr ?_
    refine (h.rises.filter _).imp_of_mem fun {a b} ha _ hle => ?_
    have hne : a.2 ≠ [] := by simpa using (List.mem_filter.mp ha).2
    have hpos := List.length_pos_iff.mpr hne
    omega
  · obtain ⟨c, hc, hstart, hstop, hread⟩ := (get_eq_some_iff h.laid).mp hget
    have hbefore := (h.gone r hr).2 c hc
    omega

/-- An empty run at the end of a full chunk is not read back. -/
theorem empty_run_not_read_back :
    ¬ ∀ ops, ∀ entry ∈ (History.run ops).live,
      (History.run ops).log.get entry.1 entry.2.length = some entry.2 := by
  intro hall
  have hread := hall [.append (List.replicate 256 0), .append []] (256, []) (by decide +kernel)
  revert hread
  decide +kernel

end WatchingZenoh.ByteLog
