import WatchingZenoh.TcpCarried

/-! Reassembly against the sender's stream. Segments are cut out of a byte string below `2^31` bytes
and numbered from an origin modulo `2^32`; the assembler's next sequence number then stands for a
position, which moves over the bytes taken and the bytes stepped over. -/

namespace WatchingZenoh.Tcp

open Words StreamAssembler

def seqAt (origin : UInt32) (a : ℕ) : UInt32 := origin + low a

theorem delta_seqAt {origin : UInt32} {a n : ℕ} (ha : a < 2 ^ 31) (hn : n < 2 ^ 31) :
    delta (seqAt origin a) (seqAt origin n) = (a : ℤ) - n := by
  rw [delta, seqAt, seqAt, add_sub_add_left_eq_sub, signed_low_sub (by omega) (by omega)]

theorem seqAt_inj {origin : UInt32} {a b : ℕ} (ha : a < 2 ^ 31) (hb : b < 2 ^ 31)
    (h : seqAt origin a = seqAt origin b) : a = b := by
  have hlow : low a = low b := add_left_cancel h
  have := congrArg UInt32.toNat hlow
  rw [toNat_low, toNat_low] at this
  omega

theorem seqAt_add (origin : UInt32) (n k : ℕ) :
    seqAt origin n + .ofNat k = seqAt origin (n + k) := by
  rw [seqAt, seqAt, add_assoc]
  congr 1
  simp [low]

theorem toNat_seqAt_sub {origin : UInt32} {a n : ℕ} (ha : a < 2 ^ 31) (hn : n ≤ a) :
    (seqAt origin a - seqAt origin n).toNat = a - n := by
  rw [seqAt, seqAt, add_sub_add_left_eq_sub, UInt32.toNat_sub, toNat_low, toNat_low]
  omega

def payloadReads (container : Option Bytes) (i : ℕ) (b : UInt8) : Payload → Prop
  | .here bytes => bytes[i]? = some b
  | .container pos len => i < len ∧ ∃ held, container = some held ∧ held[pos + i]? = some b

section Sent

variable (S : Bytes) (container : Option Bytes)

/-- The payload is the stretch `a..b` of the stream. -/
structure IsCut (payload : Payload) (a b : ℕ) : Prop where
  lt : a < b
  le : b ≤ S.length
  len : payload.len = b - a
  reads : ∀ i, i < b - a → ∃ x, S[a + i]? = some x ∧ payloadReads container i x payload

def missingUpTo (splices : List Splice) (o : ℕ) : ℕ :=
  ((splices.filter (·.atOffset ≤ o)).map (·.bytesMissing)).sum

variable (origin : UInt32)

/-- The stream taken so far: offset 0 stands for the position `base`, the next byte expected is the
one at `n`, and the stretches pushed are `cuts`. -/
structure Taken (base n : ℕ) (cuts : List (ℕ × ℕ)) (s : StreamAssembler) : Prop where
  next : s.nextSeq = some (seqAt origin n)
  position : n = base + s.stop + s.bytesMissing
  bound : n ≤ S.length
  missing : (s.splices.map (·.bytesMissing)).sum = s.bytesMissing
  splices : ∀ p ∈ s.splices, p.atOffset ≤ s.stop
  unforced : s.gapsForced = 0 → s.bytesMissing = 0
  carries : Carries container (fun o => S[base + o + missingUpTo s.splices o]?) s.kept s.stop
    s.discarded s.runs
  covered : s.gapsForced = 0 → ∀ i, base ≤ i → i < n → ∃ c ∈ cuts, c.1 ≤ i ∧ i < c.2

/-- The held segments are stretches pushed, and a stretch that is not all taken is held. -/
structure Waiting (n : ℕ) (cuts : List (ℕ × ℕ)) (held : List HeldSegment) : Prop where
  pending : ∀ h ∈ held, ∃ c ∈ cuts, h.seq = seqAt origin c.1 ∧
    IsCut S container h.payload c.1 c.2
  waits : ∀ c ∈ cuts, c.2 ≤ n ∨
    ∃ h ∈ held, h.seq = seqAt origin c.1 ∧ h.payload.len = c.2 - c.1
  short : ∀ c ∈ cuts, c.1 < c.2 ∧ c.2 ≤ S.length

def Settled (n : ℕ) (pending : List HeldSegment) : Prop :=
  ∀ h ∈ pending, ready (seqAt origin n) h = false

variable {S container origin} {base n : ℕ} {cuts : List (ℕ × ℕ)} {s : StreamAssembler}

theorem Taken.mono (h : Taken S container origin base n cuts s) {cuts' : List (ℕ × ℕ)}
    (hsub : cuts ⊆ cuts') : Taken S container origin base n cuts' s := by
  refine { h with covered := fun hf i hbase hi => ?_ }
  obtain ⟨c, hc, hcov⟩ := h.covered hf i hbase hi
  exact ⟨c, hsub hc, hcov⟩

theorem Taken.of_eq {s' : StreamAssembler} (h : Taken S container origin base n cuts s)
    (hnext : s'.nextSeq = s.nextSeq) (hstop : s'.stop = s.stop)
    (hmissing : s'.bytesMissing = s.bytesMissing) (hsplices : s'.splices = s.splices)
    (hforced : s'.gapsForced = s.gapsForced) (hkept : s'.kept = s.kept)
    (hdisc : s'.discarded = s.discarded) (hruns : s'.runs = s.runs) :
    Taken S container origin base n cuts s' := by
  refine ⟨hnext.trans h.next, ?_, h.bound, ?_, ?_, ?_, ?_, ?_⟩
  · rw [hstop, hmissing]
    exact h.position
  · rw [hsplices, hmissing]
    exact h.missing
  · rw [hsplices, hstop]
    exact h.splices
  · rw [hforced, hmissing]
    exact h.unforced
  · rw [hsplices, hkept, hstop, hdisc, hruns]
    exact h.carries
  · rw [hforced]
    exact h.covered

theorem missingUpTo_of_le {splices : List Splice} {o : ℕ} (h : ∀ p ∈ splices, p.atOffset ≤ o) :
    missingUpTo splices o = (splices.map (·.bytesMissing)).sum := by
  rw [missingUpTo, List.filter_eq_self.mpr fun p hp => by simpa using h p hp]

theorem absorb_ahead {a : ℕ} (hS : S.length < 2 ^ 31) (hn : n ≤ S.length) (ha : a ≤ S.length)
    (hlt : n < a) (payload : Payload) (packetIndex : ℕ) (atNs : Option ℕ) :
    s.absorb (seqAt origin n) (seqAt origin a) payload packetIndex atNs =
      ({ s with pending := s.pending ++
        [⟨seqAt origin a, packetIndex, payload, s.segmentsPushed, atNs⟩] }, .heldOutOfOrder) := by
  rw [absorb, delta_seqAt (by omega) (by omega), if_pos (by omega)]

theorem absorb_behind {a b : ℕ} {payload : Payload} (hS : S.length < 2 ^ 31) (hn : n ≤ S.length)
    (hcut : IsCut S container payload a b) (hle : b ≤ n) (packetIndex : ℕ) (atNs : Option ℕ) :
    s.absorb (seqAt origin n) (seqAt origin a) payload packetIndex atNs = (s, .duplicate) := by
  have := hcut.lt
  rw [absorb, delta_seqAt (by omega) (by omega), if_neg (by omega)]
  simp only [hcut.len]
  rw [if_pos (by omega)]

theorem Taken.absorb (h : Taken S container origin base n cuts s) (hS : S.length < 2 ^ 31)
    {a b : ℕ} {payload : Payload} (hcut : IsCut S container payload a b) (hmem : (a, b) ∈ cuts)
    (ha : a ≤ n) (hb : n < b) (packetIndex : ℕ) (atNs : Option ℕ) :
    Taken S container origin base b cuts
      (s.absorb (seqAt origin n) (seqAt origin a) payload packetIndex atNs).1 ∧
    (s.absorb (seqAt origin n) (seqAt origin a) payload packetIndex atNs).1.pending = s.pending ∧
    (s.absorb (seqAt origin n) (seqAt origin a) payload packetIndex atNs).1.gapsForced =
      s.gapsForced := by
  have hle := hcut.le
  have hbound := h.bound
  have habs : ((a : ℤ) - n).natAbs = n - a := by omega
  rw [StreamAssembler.absorb, delta_seqAt (by omega) (by omega), if_neg (by omega)]
  simp only [habs, hcut.len]
  rw [if_neg (by omega)]
  -- The bytes of the fresh tail, where the run will read them.
  have hbytes : ∀ i < b - n, ∃ x, S[base + (s.stop + i) + missingUpTo s.splices (s.stop + i)]? =
      some x ∧ payloadReads container (n - a + i) x payload := by
    intro i hi
    obtain ⟨x, hx, hread⟩ := hcut.reads (n - a + i) (by omega)
    refine ⟨x, ?_, hread⟩
    rw [missingUpTo_of_le fun p hp => (h.splices p hp).trans (Nat.le_add_right _ _), h.missing]
    have hpos := h.position
    rw [show base + (s.stop + i) + s.bytesMissing = a + (n - a + i) by omega]
    exact hx
  have hmin : min (b - n) (2 ^ 32 - 1) = b - n := by omega
  have hlen : b - a - (n - a) = b - n := by omega
  have hpos := h.position
  refine ⟨?_, rfl, rfl⟩
  have hcovered : s.gapsForced = 0 → ∀ i, base ≤ i → i < b → ∃ c ∈ cuts, c.1 ≤ i ∧ i < c.2 := by
    intro hf i hbase hi
    rcases Nat.lt_or_ge i n with hin | hin
    · exact h.covered hf i hbase hin
    · exact ⟨(a, b), hmem, by simp only; omega, hi⟩
  refine ⟨?_, ?_, hle, h.missing, fun p hp => (h.splices p hp).trans (Nat.le_add_right _ _),
    h.unforced, ?_, hcovered⟩
  · simp only [seqAt_add]
    rw [show n + (b - a - (n - a)) = b by omega]
  · simp only [hlen]
    omega
  · cases payload with
    | here bytes =>
      obtain ⟨hlaid, hstay, hreads, htop, htop'⟩ :=
        ByteLog.append_spec h.carries.laid (bytes.drop (n - a))
      have hblen : (bytes.drop (n - a)).length = b - n := by
        have := hcut.len
        simp only [Payload.len] at this
        rw [List.length_drop]
        omega
      simp only [hlen, hmin]
      refine h.carries.append ⟨s.stop, _, _, _, b - n, _⟩ rfl (by simp only; omega) hlaid
        (by omega) hstay (fun pos hpos => ?_) fun i hi => ?_
      · cases hpos
        exact ⟨htop, by rw [htop', hblen]⟩
      · obtain ⟨x, hx, hread⟩ := hbytes i hi
        exact ⟨x, hx, hreads i x (by rw [List.getElem?_drop]; exact hread)⟩
    | container pos len =>
      simp only [hlen, hmin]
      refine h.carries.append ⟨s.stop, _, _, _, b - n, _⟩ rfl (by simp only; omega)
        h.carries.laid le_rfl (fun _ _ hb => hb) (fun pos' hpos' => by cases hpos') fun i hi => ?_
      obtain ⟨x, hx, -, held, hheld, hread⟩ := hbytes i hi
      exact ⟨x, hx, held, hheld, by rw [add_assoc]; exact hread⟩

theorem ready_iff {held : HeldSegment} {a b : ℕ} (hS : S.length < 2 ^ 31) (hn : n ≤ S.length)
    (hseq : held.seq = seqAt origin a) (hcut : IsCut S container held.payload a b) :
    ready (seqAt origin n) held = true ↔ a ≤ n ∧ n < b := by
  have := hcut.lt
  have := hcut.le
  rw [ready, hseq, delta_seqAt (by omega) (by omega), hcut.len, Bool.and_eq_true,
    decide_eq_true_iff, decide_eq_true_iff]
  omega

theorem drainLoop_spec (hS : S.length < 2 ^ 31) {fuel : ℕ}
    (h : Taken S container origin base n cuts s)
    (hw : Waiting S container origin n cuts s.pending) (hfuel : s.pending.length ≤ fuel) :
    ∃ n', n ≤ n' ∧ Taken S container origin base n' cuts (drainLoop fuel s) ∧
      Waiting S container origin n' cuts (drainLoop fuel s).pending ∧
      Settled origin n' (drainLoop fuel s).pending ∧
      (drainLoop fuel s).gapsForced = s.gapsForced := by
  induction fuel generalizing n s with
  | zero =>
    have hnil : s.pending = [] := List.length_eq_zero_iff.mp (by omega)
    exact ⟨n, le_rfl, h, hw, by simp [drainLoop, hnil, Settled], rfl⟩
  | succ fuel ih =>
    cases hfind : s.pending.findIdx? (ready (seqAt origin n)) with
    | none =>
      have hsame : drainLoop (fuel + 1) s = s := by simp only [drainLoop, h.next, hfind]
      rw [hsame]
      exact ⟨n, le_rfl, h, hw, List.findIdx?_eq_none_iff.mp hfind, rfl⟩
    | some i =>
      obtain ⟨hi, hready, -⟩ := List.findIdx?_eq_some_iff_getElem.mp hfind
      set held := s.pending[i] with hheld
      obtain ⟨c, hc, hseq, hcut⟩ := hw.pending held (List.getElem_mem hi)
      obtain ⟨ha, hb⟩ := (ready_iff hS h.bound hseq hcut).mp hready
      have hstep : drainLoop (fuel + 1) s = drainLoop fuel
          ({ s with pending := s.pending.eraseIdx i }.absorb (seqAt origin n) (seqAt origin c.1)
            held.payload held.packetIndex held.atNs).1 := by
        simp only [drainLoop, h.next, hfind, List.getElem?_eq_getElem hi, ← hheld, hseq]
      have herased : Taken S container origin base n cuts
          { s with pending := s.pending.eraseIdx i } := h.of_eq rfl rfl rfl rfl rfl rfl rfl rfl
      obtain ⟨htaken, hpend, hforced⟩ := herased.absorb hS hcut hc ha hb held.packetIndex held.atNs
      have hwait : Waiting S container origin c.2 cuts (s.pending.eraseIdx i) := by
        refine ⟨fun g hg => hw.pending g (List.mem_of_mem_eraseIdx hg), fun d hd => ?_, hw.short⟩
        rcases hw.waits d hd with hd' | ⟨g, hg, hgseq, hglen⟩
        · exact .inl (by omega)
        · obtain ⟨j, hj, hget⟩ := List.getElem_of_mem hg
          by_cases hij : j = i
          · -- The segment just taken: its stretch is the one that waited.
            refine .inl ?_
            subst hij
            have hsame : g = held := hget.symm
            subst hsame
            have hd₁ := hw.short d hd
            have hc₁ := hw.short c hc
            have hfirst := seqAt_inj (by omega) (by omega) (hseq.symm.trans hgseq)
            have := hcut.len
            omega
          · refine .inr ⟨g, ?_, hgseq, hglen⟩
            rw [List.mem_eraseIdx_iff_getElem]
            exact ⟨j, hj, hij, hget⟩
      obtain ⟨n', hn', ht', hw', hset, hf'⟩ := ih htaken (by rw [hpend]; exact hwait)
        (by rw [hpend]; simp only [List.length_eraseIdx_of_lt hi]; omega)
      rw [hstep]
      exact ⟨n', by omega, ht', hw', hset, hf'.trans hforced⟩

theorem drainPending_spec (hS : S.length < 2 ^ 31) (h : Taken S container origin base n cuts s)
    (hw : Waiting S container origin n cuts s.pending) :
    ∃ n', n ≤ n' ∧ Taken S container origin base n' cuts s.drainPending ∧
      Waiting S container origin n' cuts s.drainPending.pending ∧
      Settled origin n' s.drainPending.pending ∧ s.drainPending.gapsForced = s.gapsForced :=
  drainLoop_spec hS h hw le_rfl

theorem forceOldestGap_spec (hS : S.length < 2 ^ 31) (h : Taken S container origin base n cuts s)
    (hw : Waiting S container origin n cuts s.pending) (hset : Settled origin n s.pending) :
    ∃ n', Taken S container origin base n' cuts s.forceOldestGap.1 ∧
      Waiting S container origin n' cuts s.forceOldestGap.1.pending ∧
      Settled origin n' s.forceOldestGap.1.pending := by
  cases hlow : s.lowestPending (seqAt origin n) with
  | none =>
    have hsame : s.forceOldestGap.1 = s := by simp only [forceOldestGap, h.next, hlow]
    rw [hsame]
    exact ⟨n, h, hw, hset⟩
  | some target =>
    have hmem := List.argmin_mem (by rw [Option.mem_def]; exact hlow)
    simp only [List.mem_filter, List.mem_map, decide_eq_true_eq] at hmem
    obtain ⟨⟨held, hheld, rfl⟩, hahead⟩ := hmem
    obtain ⟨c, hc, hseq, hcut⟩ := hw.pending held hheld
    have hbound := h.bound
    have hlt := hcut.lt
    have hle := hcut.le
    rw [hseq, delta_seqAt (by omega) (by omega)] at hahead
    have hmissing : (held.seq - seqAt origin n).toNat = c.1 - n := by
      rw [hseq, toNat_seqAt_sub (by omega) (by omega)]
    have hpos := h.position
    have hforce : s.forceOldestGap.1 = drainPending { s with
        nextSeq := some held.seq
        gapsForced := s.gapsForced + 1
        bytesMissing := s.bytesMissing + (c.1 - n)
        splices := s.splices ++ [⟨s.stop, c.1 - n⟩] } := by
      simp only [forceOldestGap, h.next, hlow, hmissing]
    have hforced : Taken S container origin base c.1 cuts { s with
        nextSeq := some held.seq
        gapsForced := s.gapsForced + 1
        bytesMissing := s.bytesMissing + (c.1 - n)
        splices := s.splices ++ [⟨s.stop, c.1 - n⟩] } := by
      refine ⟨by rw [hseq], by simp only; omega, by omega, by simp [h.missing], fun p hp => ?_,
        by simp, ?_, by simp⟩
      · rcases List.mem_append.mp hp with hp | hp
        · exact h.splices p hp
        · cases List.mem_singleton.mp hp
          exact le_rfl
      · refine h.carries.congr fun o ho => ?_
        have hfar : ¬ s.stop ≤ o := by omega
        simp [missingUpTo, hfar]
    have hw' : Waiting S container origin c.1 cuts s.pending :=
      ⟨hw.pending, fun d hd => (hw.waits d hd).imp_left fun hd => by omega, hw.short⟩
    obtain ⟨n', -, ht', hwait', hset', -⟩ := drainPending_spec hS hforced hw'
    rw [hforce]
    exact ⟨n', ht', hwait', hset'⟩

theorem forceStaleGap_spec (hS : S.length < 2 ^ 31) (h : Taken S container origin base n cuts s)
    (hw : Waiting S container origin n cuts s.pending) (hset : Settled origin n s.pending) :
    ∃ n', Taken S container origin base n' cuts s.forceStaleGap ∧
      Waiting S container origin n' cuts s.forceStaleGap.pending ∧
      Settled origin n' s.forceStaleGap.pending := by
  rw [forceStaleGap]
  split
  · split
    · exact ⟨n, h, hw, hset⟩
    · split
      · exact ⟨n, h, hw, hset⟩
      · exact forceOldestGap_spec hS h hw hset
  · exact ⟨n, h, hw, hset⟩

end Sent

end WatchingZenoh.Tcp
