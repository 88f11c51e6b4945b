import WatchingZenoh.TcpEvents
import WatchingZenoh.Library.Steps

/-! Runs of the assembler over segments cut from one stream, in any order and with loss, repetition
and overlap, with gaps stepped over and the retained bytes trimmed at any moment. -/

namespace WatchingZenoh.Tcp

open Words StreamAssembler

section Runs

variable {S : SentStream} {container : Option Bytes} {origin : UInt32} {base n : ℕ}
  {cuts : List (ℕ × ℕ)} {s : StreamAssembler}

/-- Nothing has been pushed that the stream could begin with. -/
structure Fresh (s : StreamAssembler) : Prop where
  nextSeq : s.nextSeq = none
  stop : s.stop = 0
  discarded : s.discarded = 0
  runs : s.runs = .empty
  kept : s.kept = .empty
  pending : s.pending = []
  bytesMissing : s.bytesMissing = 0
  gapsForced : s.gapsForced = 0
  splices : s.splices = []

theorem Fresh.taken (h : Fresh s) {t : StreamAssembler} (hle : n ≤ S.bytes.length)
    (hnext : t.nextSeq = some (seqAt origin n)) (hstop : t.stop = s.stop)
    (hmissing : t.bytesMissing = s.bytesMissing) (hsplices : t.splices = s.splices)
    (hkept : t.kept = s.kept) (hdisc : t.discarded = s.discarded) (hruns : t.runs = s.runs) :
    Taken S.bytes container origin n n [] t := by
  refine ⟨hnext, ?_, hle, ?_, ?_, fun _ => ?_, ?_, fun _ i hi hlt => by omega⟩
  · rw [hstop, hmissing, h.stop, h.bytesMissing]
    rfl
  · rw [hsplices, hmissing, h.splices, h.bytesMissing]
    rfl
  · rw [hsplices, h.splices]
    simp
  · rw [hmissing, h.bytesMissing]
  · rw [hkept, hstop, hdisc, hruns, h.kept, h.stop, h.discarded, h.runs]
    exact carries_empty

/-- What is known of the assembler after some events. -/
def Known (origin : UInt32) (past : List (Event S container)) (s : StreamAssembler) : Prop :=
  if synced past then Stands S container origin (baseOf past) (cutsOf past) s
  else Fresh s ∧ cutsOf past = []

/-- The fields of the stream are left alone by the flags, unless a SYN gives the origin. -/
theorem noteFlags_of_not_first (seg : Segment) (h : seg.syn = false ∨ s.nextSeq ≠ none) :
    (s.noteFlags seg).nextSeq = s.nextSeq ∧ (s.noteFlags seg).pending = s.pending ∧
      (s.noteFlags seg).stop = s.stop ∧ (s.noteFlags seg).bytesMissing = s.bytesMissing ∧
      (s.noteFlags seg).splices = s.splices ∧ (s.noteFlags seg).gapsForced = s.gapsForced ∧
      (s.noteFlags seg).kept = s.kept ∧ (s.noteFlags seg).discarded = s.discarded ∧
      (s.noteFlags seg).runs = s.runs := by
  have hnot : ¬ (seg.syn = true ∧ s.nextSeq = none) := by
    rintro ⟨hsyn, hnone⟩
    rcases h with h | h
    · simp [h] at hsyn
    · exact h hnone
  cases hrst : seg.rst <;> cases hfin : seg.fin <;> simp [noteFlags, hrst, hfin, hnot]

theorem Stands.of_eq {t : StreamAssembler} (h : Stands S container origin base cuts s)
    (hnext : t.nextSeq = s.nextSeq) (hstop : t.stop = s.stop)
    (hmissing : t.bytesMissing = s.bytesMissing) (hsplices : t.splices = s.splices)
    (hforced : t.gapsForced = s.gapsForced) (hkept : t.kept = s.kept)
    (hdisc : t.discarded = s.discarded) (hruns : t.runs = s.runs)
    (hpending : t.pending = s.pending) : Stands S container origin base cuts t := by
  obtain ⟨n, ht, hw, hset⟩ := h
  exact ⟨n, ht.of_eq hnext hstop hmissing hsplices hforced hkept hdisc hruns,
    by rw [hpending]; exact hw, by rw [hpending]; exact hset⟩

theorem Stands.noteFlags (h : Stands S container origin base cuts s) (seg : Segment) :
    Stands S container origin base cuts (s.noteFlags seg) := by
  have hsome : s.nextSeq ≠ none := by
    obtain ⟨n, ht, -, -⟩ := h
    simp [ht.next]
  obtain ⟨hnext, hpending, hstop, hmissing, hsplices, hforced, hkept, hdisc, hruns⟩ :=
    noteFlags_of_not_first seg (.inr hsome)
  exact h.of_eq hnext hstop hmissing hsplices hforced hkept hdisc hruns hpending

theorem Fresh.noteFlags (h : Fresh s) (seg : Segment) (hsyn : seg.syn = false) :
    Fresh (s.noteFlags seg) := by
  obtain ⟨hnext, hpending, hstop, hmissing, hsplices, hforced, hkept, hdisc, hruns⟩ :=
    noteFlags_of_not_first (s := s) seg (.inl hsyn)
  exact ⟨hnext.trans h.nextSeq, hstop.trans h.stop, hdisc.trans h.discarded,
    hruns.trans h.runs, hkept.trans h.kept, hpending.trans h.pending,
    hmissing.trans h.bytesMissing, hforced.trans h.gapsForced, hsplices.trans h.splices⟩

theorem Fresh.stands (h : Fresh s) {t : StreamAssembler} (hle : n ≤ S.bytes.length)
    (hnext : t.nextSeq = some (seqAt origin n)) (hstop : t.stop = s.stop)
    (hmissing : t.bytesMissing = s.bytesMissing) (hsplices : t.splices = s.splices)
    (hkept : t.kept = s.kept) (hdisc : t.discarded = s.discarded) (hruns : t.runs = s.runs)
    (hpending : t.pending = s.pending) : Stands S container origin n [] t := by
  have hnil : t.pending = [] := hpending.trans h.pending
  refine ⟨n, h.taken hle hnext hstop hmissing hsplices hkept hdisc hruns, ?_, ?_⟩
  · rw [hnil]
    exact ⟨by simp, by simp, by simp⟩
  · rw [hnil]
    simp [Settled]

theorem known_syn {past : List (Event S container)} (h : Known origin past s) (fin rst : Bool)
    (packetIndex : ℕ) :
    Known origin (past ++ [.syn fin rst packetIndex])
      (Event.apply origin s (.syn fin rst packetIndex : Event S container)) := by
  have happly : Event.apply origin s (.syn fin rst packetIndex : Event S container) =
      s.noteFlags ⟨origin - 1, true, fin, rst, [], packetIndex⟩ := by
    simp [Event.apply, pushLocated]
  have hsync : synced (past ++ [.syn fin rst packetIndex]) = true := by
    rw [synced_append]
    simp [synced]
  have hcuts : cutsOf (past ++ [.syn fin rst packetIndex]) = cutsOf past := by
    rw [cutsOf_append]
    simp [cutsOf]
  rw [Known, if_pos hsync, hcuts, baseOf_append, happly]
  by_cases hpast : synced past
  · rw [Known, if_pos hpast] at h
    rw [if_pos hpast]
    exact h.noteFlags _
  · rw [Known, if_neg hpast] at h
    obtain ⟨hf, hnil⟩ := h
    have hzero : origin - 1 + 1 = seqAt origin 0 := by simp [seqAt, low]
    have hnone := hf.nextSeq
    rw [if_neg hpast, hnil]
    show Stands S container origin 0 [] _
    cases rst <;> cases fin <;>
      exact hf.stands (Nat.zero_le _) (by simp [noteFlags, hnone, hzero])
        (by simp [noteFlags, hnone]) (by simp [noteFlags, hnone]) (by simp [noteFlags, hnone])
        (by simp [noteFlags, hnone]) (by simp [noteFlags, hnone]) (by simp [noteFlags, hnone])
        (by simp [noteFlags, hnone])

theorem known_cut {past : List (Event S container)} (h : Known origin past s)
    (c : Cut S container) :
    Known origin (past ++ [.cut c]) (Event.apply origin s (.cut c)) := by
  by_cases hlt : c.first < c.last
  · have hsync : synced (past ++ [.cut c]) = true := by
      rw [synced_append]
      simp [synced, hlt]
    have hcuts : cutsOf (past ++ [.cut c]) = cutsOf past ++ [(c.first, c.last)] := by
      rw [cutsOf_append]
      simp [cutsOf, hlt]
    have hfull : c.payload.isEmpty = false := by
      have := c.length_payload
      cases hp : c.payload with
      | nil => simp [hp] at this; omega
      | cons b rest => rfl
    -- What stands behind the flags takes the stretch.
    have hpush : ∀ {base : ℕ} {cuts : List (ℕ × ℕ)},
        Stands S container origin base cuts
          { s.noteFlags (c.segment origin) with
            segmentsPushed := (s.noteFlags (c.segment origin)).segmentsPushed + 1
            nextSeq := some ((s.noteFlags (c.segment origin)).nextSeq.getD
              (seqAt origin c.first)) } →
        Stands S container origin base (cuts ++ [(c.first, c.last)])
          (Event.apply origin s (.cut c)) := by
      intro base cuts hs
      obtain ⟨n, ht, hw, -⟩ := hs
      have hn : (s.noteFlags (c.segment origin)).nextSeq.getD (seqAt origin c.first) =
          seqAt origin n := Option.some.inj ht.next
      have habs := stands_absorb ht hw (c.isCut hlt) c.packetIndex c.atNs
      have happly : Event.apply origin s (.cut c) = (s.pushLocated (c.segment origin) c.atNs
          c.located).1 := rfl
      rw [happly]
      unfold pushLocated
      simp only [Cut.segment, hfull] at habs hn ⊢
      simp only [hn, Bool.false_eq_true, if_false] at habs ⊢
      exact habs
    rw [Known, if_pos hsync, hcuts, baseOf_append]
    by_cases hpast : synced past
    · rw [Known, if_pos hpast] at h
      rw [if_pos hpast]
      refine hpush ?_
      have hs := h.noteFlags (c.segment origin)
      refine hs.of_eq ?_ rfl rfl rfl rfl rfl rfl rfl rfl
      obtain ⟨n, ht, -, -⟩ := hs
      simp [ht.next]
    · rw [Known, if_neg hpast] at h
      obtain ⟨hf, hnil⟩ := h
      have hflags := hf.noteFlags (c.segment origin) rfl
      have hle := c.last_le
      rw [if_neg hpast, hnil]
      have hbase : baseOf [.cut c] = c.first := by simp [baseOf, hlt]
      rw [hbase]
      exact hpush (hflags.stands (by omega) (by simp [hflags.nextSeq]) rfl rfl rfl rfl rfl rfl rfl)
  · have hempty : c.payload.isEmpty = true := by
      have := c.length_payload
      rw [List.isEmpty_iff, ← List.length_eq_zero_iff]
      omega
    have happly : Event.apply origin s (.cut c) = s.noteFlags (c.segment origin) := by
      simp [Event.apply, pushLocated, Cut.segment, hempty]
    have hsync : synced (past ++ [.cut c]) = synced past := by
      rw [synced_append]
      simp [synced, hlt]
    have hcuts : cutsOf (past ++ [.cut c]) = cutsOf past := by
      rw [cutsOf_append]
      simp [cutsOf, hlt]
    rw [Known, hsync, hcuts, baseOf_append, happly]
    by_cases hpast : synced past
    · rw [Known, if_pos hpast] at h
      rw [if_pos hpast, if_pos hpast]
      exact h.noteFlags _
    · rw [Known, if_neg hpast] at h
      rw [if_neg hpast]
      exact ⟨h.1.noteFlags _ rfl, h.2⟩

/-- An event that pushes nothing keeps what is known where it keeps what stands and what is fresh. -/
theorem known_quiet {past : List (Event S container)} (h : Known origin past s)
    {e : Event S container} {t : StreamAssembler} (hsync : synced [e] = false)
    (hcuts : cutsOf [e] = [])
    (hstands : Stands S container origin (baseOf past) (cutsOf past) s →
      Stands S container origin (baseOf past) (cutsOf past) t)
    (hfresh : Fresh s → Fresh t) : Known origin (past ++ [e]) t := by
  have hsame : synced (past ++ [e]) = synced past := by
    rw [synced_append, hsync, Bool.or_false]
  rw [Known, hsame, cutsOf_append, hcuts, List.append_nil, baseOf_append]
  by_cases hpast : synced past
  · rw [Known, if_pos hpast] at h
    rw [if_pos hpast, if_pos hpast]
    exact hstands h
  · rw [Known, if_neg hpast] at h
    rw [if_neg hpast]
    exact ⟨hfresh h.1, h.2⟩

theorem known_force {past : List (Event S container)} (h : Known origin past s) :
    Known origin (past ++ [.forceOldestGap]) s.forceOldestGap.1 := by
  refine known_quiet h rfl rfl ?_ fun hf => ?_
  · rintro ⟨n, ht, hw, hset⟩
    exact forceOldestGap_spec S.short ht hw hset
  · have hsame : s.forceOldestGap.1 = s := by simp only [forceOldestGap, hf.nextSeq]
    rw [hsame]
    exact hf

theorem known_trim {past : List (Event S container)} (h : Known origin past s) (keep : ℕ) :
    Known origin (past ++ [.trim keep]) (s.trim keep).1 := by
  by_cases hle : s.stop - s.discarded ≤ keep
  · have hsame : (s.trim keep).1 = s := by simp only [trim, if_pos hle]
    rw [hsame]
    exact known_quiet h rfl rfl id id
  · refine known_quiet h rfl rfl ?_ fun hf => ?_
    · rintro ⟨n, ht, hw, hset⟩
      have hpos := ht.position
      have hbound := ht.bound
      have hshort := S.short
      have hcarries := ht.carries.trim (by omega)
        (Nat.le_add_right s.discarded (s.stop - s.discarded - keep)) (by omega)
      simp only [trim, if_neg hle]
      exact ⟨n, { ht with carries := hcarries }, hw, hset⟩
    · have := hf.stop
      have := hf.discarded
      omega

theorem known_apply {past : List (Event S container)} (h : Known origin past s)
    (e : Event S container) : Known origin (past ++ [e]) (Event.apply origin s e) := by
  cases e with
  | syn fin rst packetIndex => exact known_syn h fin rst packetIndex
  | cut c => exact known_cut h c
  | forceOldestGap => exact known_force h
  | trim keep => exact known_trim h keep

theorem known_run (origin : UInt32) (patience : Option ℕ) (events : List (Event S container)) :
    Known origin events (events.foldl (Event.apply origin) (new.withGapPatience patience)) := by
  have hinit : Known origin ([] : List (Event S container)) (new.withGapPatience patience) :=
    ⟨⟨rfl, rfl, rfl, rfl, rfl, rfl, rfl, rfl, rfl⟩, rfl⟩
  exact Steps.foldl_keeps (P := Known origin) (fun past s e h => known_apply h e) events [] hinit

theorem Stands.isGreatest (h : Stands S container origin base cuts s) (hforced : s.gapsForced = 0) :
    IsGreatest {m | base + m ≤ S.bytes.length ∧
      ∀ i < m, ∃ c ∈ cuts, c.1 ≤ base + i ∧ base + i < c.2} s.stop := by
  obtain ⟨n, ht, hw, hset⟩ := h
  have hpos := ht.position
  have hmissing := ht.unforced hforced
  have hbound := ht.bound
  refine ⟨⟨by omega, fun i hi => ht.covered hforced (base + i) (by omega) (by omega)⟩,
    fun m hm => ?_⟩
  obtain ⟨hle, hcov⟩ := hm
  by_contra hgt
  obtain ⟨c, hc, hfirst, hlast⟩ := hcov s.stop (by omega)
  -- The stretch with the next byte is not all taken, so it is held; but nothing held has that byte.
  rcases hw.waits c hc with hdone | ⟨g, hg, hseq, hlen⟩
  · omega
  · obtain ⟨d, hd, hgseq, hcut⟩ := hw.pending g hg
    have hcs := hw.short c hc
    have hds := hw.short d hd
    have hS := S.short
    have hsame := seqAt_inj (by omega) (by omega) (hseq.symm.trans hgseq)
    have hdlen := hcut.len
    have hready := (ready_iff hS hbound hgseq hcut).mpr ⟨by omega, by omega⟩
    rw [hset g hg] at hready
    cases hready

/-- The assembled stream is the sent one: every retained offset reads the byte of its position, which
is behind by the bytes stepped over before it; the next sequence number is that of the bytes held and
missing; and with no gap stepped over the stream is as long as the pushed segments cover. -/
theorem reassembly_run (S : SentStream) (container : Option Bytes) (origin : UInt32)
    (patience : Option ℕ) (events : List (Event S container)) :
    let s := events.foldl (Event.apply origin) (new.withGapPatience patience)
    (∀ o, s.discarded ≤ o → o < s.stop →
      ∃ b, S.bytes[baseOf events + o + missingUpTo s.splices o]? = some b ∧
        s.bytes o (o + 1) container = some [b]) ∧
    (synced events → s.nextSeq = some (seqAt origin (baseOf events + s.stop + s.bytesMissing)) ∧
      baseOf events + s.stop + s.bytesMissing ≤ S.bytes.length) ∧
    (s.gapsForced = 0 →
      IsGreatest {m | baseOf events + m ≤ S.bytes.length ∧
        ∀ i < m, ∃ c ∈ cutsOf events, c.1 ≤ baseOf events + i ∧ baseOf events + i < c.2} s.stop) := by
  intro s
  have hknown : Known origin events s := known_run origin patience events
  by_cases hsync : synced events
  · rw [Known, if_pos hsync] at hknown
    obtain ⟨n, ht, hw, hset⟩ := hknown
    have hpos := ht.position
    have hbound := ht.bound
    have hshort := S.short
    refine ⟨fun o hdisc ho => ht.carries.bytes (by omega) hdisc ho, fun _ => ?_, fun hforced => ?_⟩
    · rw [← hpos]
      exact ⟨ht.next, hbound⟩
    · exact Stands.isGreatest ⟨n, ht, hw, hset⟩ hforced
  · rw [Known, if_neg hsync] at hknown
    have hzero := hknown.1.stop
    refine ⟨fun o _ ho => by omega, fun h => absurd h hsync, fun _ => ?_⟩
    rw [hknown.2, hzero, baseOf_of_not_synced hsync]
    refine ⟨⟨Nat.zero_le _, by simp⟩, fun m hm => ?_⟩
    by_contra hgt
    obtain ⟨c, hc, -⟩ := hm.2 0 (by omega)
    simp at hc

end Runs

end WatchingZenoh.Tcp
