import Mathlib
import WatchingZenoh.TcpExact

/-! A SYN that carries data. The SYN itself has a sequence number, so its first data byte has the next
one; the assembler takes the origin so, but reads the payload of that segment at the SYN's own
number. The first byte is then taken for one that is already there, and every other stands one place
too early. -/

namespace WatchingZenoh.Tcp

open Words StreamAssembler

def Payload.drop (k : ℕ) : Payload → Payload
  | .here bytes => .here (bytes.drop k)
  | .container pos len => .container (pos + k) (len - k)

@[simp] theorem Payload.len_drop (k : ℕ) (payload : Payload) :
    (payload.drop k).len = payload.len - k := by
  cases payload <;> simp [Payload.drop, Payload.len]

@[simp] theorem Payload.drop_zero (payload : Payload) : payload.drop 0 = payload := by
  cases payload <;> simp [Payload.drop]

theorem Payload.drop_drop (i j : ℕ) (payload : Payload) :
    (payload.drop i).drop j = payload.drop (i + j) := by
  cases payload with
  | here bytes => simp [Payload.drop]
  | container pos len =>
    simp only [Payload.drop, Payload.container.injEq]
    omega

theorem payloadReads_drop {container : Option Bytes} {i k : ℕ} {b : UInt8} {payload : Payload}
    (h : payloadReads container (k + i) b payload) : payloadReads container i b (payload.drop k) := by
  cases payload with
  | here bytes =>
    simp only [Payload.drop, payloadReads, List.getElem?_drop]
    exact h
  | container pos len =>
    obtain ⟨hlt, held, hheld, hread⟩ := h
    exact ⟨by omega, held, hheld, by rw [Nat.add_assoc]; exact hread⟩

theorem IsCut.drop {S : Bytes} {container : Option Bytes} {payload : Payload} {a b k : ℕ}
    (h : IsCut S container payload a b) (hk : a + k < b) :
    IsCut S container (payload.drop k) (a + k) b := by
  refine ⟨hk, h.le, ?_, fun i hi => ?_⟩
  · rw [Payload.len_drop, h.len]
    omega
  · obtain ⟨x, hx, hread⟩ := h.reads (k + i) (by omega)
    exact ⟨x, by rw [Nat.add_assoc]; exact hx, payloadReads_drop hread⟩

theorem IsCut.congr {S S' : Bytes} {container : Option Bytes} {payload : Payload} {a b : ℕ}
    (h : IsCut S container payload a b) (hlength : S'.length = S.length)
    (hsame : ∀ i, a ≤ i → S'[i]? = S[i]?) : IsCut S' container payload a b := by
  refine ⟨h.lt, by rw [hlength]; exact h.le, h.len, fun i hi => ?_⟩
  obtain ⟨x, hx, hread⟩ := h.reads i hi
  exact ⟨x, (hsame _ (Nat.le_add_right _ _)).trans hx, hread⟩

/-- Two assemblers that have taken the same bytes and hold the same segments. -/
structure SameStream (s t : StreamAssembler) : Prop where
  nextSeq : s.nextSeq = t.nextSeq
  stop : s.stop = t.stop
  bytesMissing : s.bytesMissing = t.bytesMissing
  splices : s.splices = t.splices
  gapsForced : s.gapsForced = t.gapsForced
  kept : s.kept = t.kept
  discarded : s.discarded = t.discarded
  log : s.runs.log = t.runs.log
  ends : s.runs.stop = t.runs.stop
  pending : s.pending = t.pending

theorem SameStream.symm {s t : StreamAssembler} (h : SameStream s t) : SameStream t s :=
  ⟨h.nextSeq.symm, h.stop.symm, h.bytesMissing.symm, h.splices.symm, h.gapsForced.symm,
    h.kept.symm, h.discarded.symm, h.log.symm, h.ends.symm, h.pending.symm⟩

theorem SameStream.trans {s t u : StreamAssembler} (h : SameStream s t) (h' : SameStream t u) :
    SameStream s u :=
  ⟨h.nextSeq.trans h'.nextSeq, h.stop.trans h'.stop, h.bytesMissing.trans h'.bytesMissing,
    h.splices.trans h'.splices, h.gapsForced.trans h'.gapsForced, h.kept.trans h'.kept,
    h.discarded.trans h'.discarded, h.log.trans h'.log, h.ends.trans h'.ends,
    h.pending.trans h'.pending⟩

theorem Carries.of_runs {container : Option Bytes} {byteOf : ℕ → Option UInt8} {kept : ByteLog}
    {stop discarded : ℕ} {runs runs' : RunMap} (h : Carries container byteOf kept stop discarded runs)
    (hlog : runs'.log = runs.log) (hstop : runs'.stop = runs.stop) :
    Carries container byteOf kept stop discarded runs' := by
  obtain ⟨log, ends, skipped⟩ := runs
  obtain ⟨log', ends', skipped'⟩ := runs'
  obtain rfl : log' = log := hlog
  obtain rfl : ends' = ends := hstop
  exact ⟨⟨h.tiled.rising, h.tiled.below⟩, h.ends, h.within, h.front, h.none, h.laid, h.top,
    h.rises, h.reads⟩

section Same

variable {S : Bytes} {container : Option Bytes} {origin : UInt32} {base n : ℕ}
  {cuts : List (ℕ × ℕ)} {s t : StreamAssembler}

theorem SameStream.taken (h : SameStream s t) (ht : Taken S container origin base n cuts t) :
    Taken S container origin base n cuts s := by
  refine ⟨h.nextSeq.trans ht.next, ?_, ht.bound, ?_, ?_, ?_, ?_, ?_⟩
  · rw [h.stop, h.bytesMissing]
    exact ht.position
  · rw [h.splices, h.bytesMissing]
    exact ht.missing
  · rw [h.splices, h.stop]
    exact ht.splices
  · rw [h.gapsForced, h.bytesMissing]
    exact ht.unforced
  · rw [h.splices, h.kept, h.stop, h.discarded]
    exact ht.carries.of_runs h.log h.ends
  · rw [h.gapsForced]
    exact ht.covered

theorem delta_self (next : UInt32) : delta next next = 0 := by
  simp [delta, signed]

theorem absorb_same_tail {next seq : UInt32} {payload : Payload} {k : ℕ}
    (hle : delta seq next ≤ 0) (hk : (delta seq next).natAbs = k) (hlt : k < payload.len)
    (packetIndex : ℕ) (atNs : Option ℕ) :
    SameStream (s.absorb next seq payload packetIndex atNs).1
      (s.absorb next next (payload.drop k) packetIndex atNs).1 := by
  rw [absorb, absorb, delta_self, if_neg (show ¬ delta seq next > 0 by omega),
    if_neg (show ¬ (0 : ℤ) > 0 by omega)]
  simp only [hk, Int.natAbs_zero, Payload.len_drop]
  rw [if_neg (show ¬ k ≥ payload.len by omega), if_neg (show ¬ 0 ≥ payload.len - k by omega)]
  cases payload with
  | here bytes =>
    exact ⟨by simp, by simp, rfl, rfl, rfl, by simp [Payload.drop], rfl,
      by simp [Payload.drop, RunMap.pushBack], by simp [RunMap.pushBack], rfl⟩
  | container pos len =>
    exact ⟨by simp, by simp, rfl, rfl, rfl, by simp [Payload.drop], rfl,
      by simp [Payload.drop, RunMap.pushBack], by simp [RunMap.pushBack], rfl⟩

theorem absorb_same_from {a f b : ℕ} {payload : Payload} (haf : a ≤ f) (hfn : f ≤ n) (hn : n < b)
    (hb : b < 2 ^ 31) (hlen : payload.len = b - a) (packetIndex : ℕ) (atNs : Option ℕ) :
    SameStream (s.absorb (seqAt origin n) (seqAt origin a) payload packetIndex atNs).1
      (s.absorb (seqAt origin n) (seqAt origin f) (payload.drop (f - a)) packetIndex atNs).1 := by
  have hfirst := @absorb_same_tail s (seqAt origin n) (seqAt origin a) payload (n - a)
    (by rw [delta_seqAt (by omega) (by omega)]; omega)
    (by rw [delta_seqAt (by omega) (by omega)]; omega) (by omega) packetIndex atNs
  have hlast := @absorb_same_tail s (seqAt origin n) (seqAt origin f) (payload.drop (f - a)) (n - f)
    (by rw [delta_seqAt (by omega) (by omega)]; omega)
    (by rw [delta_seqAt (by omega) (by omega)]; omega) (by rw [Payload.len_drop]; omega)
    packetIndex atNs
  rw [Payload.drop_drop, show f - a + (n - f) = n - a by omega] at hlast
  exact hfirst.trans hlast.symm

end Same

/-- With `m` segments to come, no gap is old enough to be stepped over. -/
structure Patient (m : ℕ) (s : StreamAssembler) : Prop where
  forced : s.gapsForced = 0
  whole : s.discarded = 0
  pushed : 1 ≤ s.segmentsPushed
  patience : ∀ k, s.gapPatience = some k → s.segmentsPushed + m ≤ k + 1
  held : ∀ h ∈ s.pending, 2 ≤ h.heldAt

section Patience

variable {m : ℕ} {s : StreamAssembler}

theorem Patient.absorb (h : Patient m s) {next seq : UInt32}
    (htwo : delta seq next > 0 → 2 ≤ s.segmentsPushed) (payload : Payload) (packetIndex : ℕ)
    (atNs : Option ℕ) :
    Patient m (s.absorb next seq payload packetIndex atNs).1 ∧
      (s.absorb next seq payload packetIndex atNs).1.segmentsPushed = s.segmentsPushed := by
  rw [StreamAssembler.absorb]
  split
  · rename_i hahead
    refine ⟨⟨h.forced, h.whole, h.pushed, h.patience, fun held hheld => ?_⟩, rfl⟩
    rcases List.mem_append.mp hheld with hold | hnew
    · exact h.held held hold
    · rw [List.mem_singleton.mp hnew]
      exact htwo hahead
  · dsimp only
    split
    · exact ⟨h, rfl⟩
    · exact ⟨⟨h.forced, h.whole, h.pushed, h.patience, h.held⟩, rfl⟩

theorem Patient.drainLoop (fuel : ℕ) (h : Patient m s) (htwo : 2 ≤ s.segmentsPushed) :
    Patient m (drainLoop fuel s) ∧ (drainLoop fuel s).segmentsPushed = s.segmentsPushed := by
  induction fuel generalizing s with
  | zero => exact ⟨h, rfl⟩
  | succ fuel ih =>
    rw [StreamAssembler.drainLoop]
    rcases hnext : s.nextSeq with _ | next
    · exact ⟨h, rfl⟩
    · dsimp only
      rcases s.pending.findIdx? (ready next) with _ | i
      · exact ⟨h, rfl⟩
      · dsimp only
        rcases s.pending[i]? with _ | held
        · exact ⟨h, rfl⟩
        · have herased : Patient m { s with pending := s.pending.eraseIdx i } :=
            { h with held := fun g hg => h.held g (List.mem_of_mem_eraseIdx hg) }
          rw [hnext] at herased
          obtain ⟨htaken, hpushed⟩ := @Patient.absorb _ _ herased next held.seq (fun _ => htwo)
            held.payload held.packetIndex held.atNs
          obtain ⟨hdone, hcount⟩ := ih htaken (by rw [hpushed]; exact htwo)
          exact ⟨hdone, hcount.trans hpushed⟩

theorem Patient.forceStaleGap_eq (h : Patient m s) (htwo : 2 ≤ s.segmentsPushed) :
    s.forceStaleGap = s := by
  rw [forceStaleGap]
  split
  · rename_i patience next hpatience hnext
    split
    · rfl
    · rename_i heldAt hmin
      obtain ⟨held, hheld, rfl⟩ := List.mem_map.mp (List.min?_mem hmin)
      have hold := h.held held (List.mem_filter.mp hheld).1
      have hroom := h.patience patience hpatience
      rw [if_pos (by omega)]
  · rfl

theorem settle_of_pending_nil (h : s.pending = []) : s.drainPending.forceStaleGap = s := by
  have hdrain : s.drainPending = s := by
    rw [drainPending, h]
    rfl
  rw [hdrain, forceStaleGap]
  split
  · rw [h]
    rfl
  · rfl

theorem Patient.count (h : Patient m s) (outcome : SegmentOutcome) :
    Patient m (s.count outcome) ∧ (s.count outcome).segmentsPushed = s.segmentsPushed := by
  cases outcome <;> exact ⟨⟨h.forced, h.whole, h.pushed, h.patience, h.held⟩, rfl⟩

theorem Patient.noteFlags (h : Patient m s) (seg : Segment) : Patient m (s.noteFlags seg) := by
  obtain ⟨seq, syn, fin, rst, payload, packetIndex⟩ := seg
  have hflags : (s.noteFlags ⟨seq, syn, fin, rst, payload, packetIndex⟩).gapsForced =
      s.gapsForced ∧
      (s.noteFlags ⟨seq, syn, fin, rst, payload, packetIndex⟩).discarded = s.discarded ∧
      (s.noteFlags ⟨seq, syn, fin, rst, payload, packetIndex⟩).segmentsPushed =
        s.segmentsPushed ∧
      (s.noteFlags ⟨seq, syn, fin, rst, payload, packetIndex⟩).gapPatience = s.gapPatience ∧
      (s.noteFlags ⟨seq, syn, fin, rst, payload, packetIndex⟩).pending = s.pending := by
    cases rst <;> cases fin <;> by_cases hsyn : syn = true ∧ s.nextSeq = none <;>
      simp [StreamAssembler.noteFlags, hsyn]
  obtain ⟨hforced, hwhole, hpushed, hpatience, hpending⟩ := hflags
  refine ⟨hforced.trans h.forced, hwhole.trans h.whole, ?_, fun k hk => ?_, ?_⟩
  · rw [hpushed]
    exact h.pushed
  · rw [hpushed]
    exact h.patience k (hpatience ▸ hk)
  · rw [hpending]
    exact h.held

theorem Patient.settle (h : Patient m s) (htwo : 2 ≤ s.segmentsPushed) (next seq : UInt32)
    (payload : Payload) (packetIndex : ℕ) (atNs : Option ℕ) :
    Patient m (((s.absorb next seq payload packetIndex atNs).1.count
      (s.absorb next seq payload packetIndex atNs).2).drainPending.forceStaleGap) := by
  obtain ⟨habsorbed, hcount₁⟩ := @Patient.absorb _ _ h next seq (fun _ => htwo) payload
    packetIndex atNs
  obtain ⟨hcounted, hcount₂⟩ :=
    habsorbed.count (s.absorb next seq payload packetIndex atNs).2
  obtain ⟨hdrained, hcount₃⟩ := hcounted.drainLoop _ (by rw [hcount₂, hcount₁]; exact htwo)
  rw [drainPending, hdrained.forceStaleGap_eq (by rw [hcount₃, hcount₂, hcount₁]; exact htwo)]
  exact hdrained

theorem Patient.pushLocated (h : Patient (m + 1) s) (seg : Segment) (atNs : Option ℕ)
    (located : PayloadAt) : Patient m (s.pushLocated seg atNs located).1 := by
  have hflags := h.noteFlags seg
  unfold StreamAssembler.pushLocated
  dsimp only
  split
  · refine { hflags with patience := fun k hk => ?_ }
    have := hflags.patience k hk
    simp only
    omega
  · have hpushed : Patient m { s.noteFlags seg with
        segmentsPushed := (s.noteFlags seg).segmentsPushed + 1
        nextSeq := some ((s.noteFlags seg).nextSeq.getD seg.seq) } := by
      refine ⟨hflags.forced, hflags.whole, Nat.le_add_left _ _, fun k hk => ?_, hflags.held⟩
      have := hflags.patience k hk
      simp only
      omega
    have htwo : 2 ≤ (s.noteFlags seg).segmentsPushed + 1 := by
      have := hflags.pushed
      omega
    exact hpushed.settle htwo _ _ _ _ _

end Patience

end WatchingZenoh.Tcp
