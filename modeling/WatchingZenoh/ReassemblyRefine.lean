import WatchingZenoh.ReassemblyChain

/-! The calls of the router, one specification each: they return, keep the invariant, and do to the
chain of their key what `absorb` says. -/

namespace WatchingZenoh.ReassemblyRefine

open FrameEncode ReassemblySlot ReassemblyDispatch ReassemblyDispatcher ReassemblyChain KeyedSlots

variable {slotCount cap : ℕ} {d : ReassemblyDispatcher slotCount cap}

theorem findActive_eq (peerKey : Bytes) (reliable : Bool) (priority : Priority) :
    d.findActive peerKey reliable priority =
      holderIdx Slot.key (.new peerKey reliable priority) d.slots := by
  unfold findActive holderIdx
  congr 1
  funext slot
  rcases slot.key with _ | k
  · rfl
  · rcases k with ⟨peer, rel, prio⟩
    rw [Bool.eq_iff_iff]
    simp only [ChainKey.samePeer, ChainKey.new, Bool.and_eq_true, beq_iff_eq, Option.some.injEq,
      ChainKey.mk.injEq]
    tauto

theorem busy_of_findActive (h : Inv d) {peerKey : Bytes} {reliable : Bool} {priority : Priority}
    {idx : ℕ} (hidx : d.findActive peerKey reliable priority = some idx) :
    ∃ slot chain, d.slots[idx]? = some slot ∧ slot.engine = .receiving ∧
      slot.key = some (.new peerKey reliable priority) ∧ slot.chain = some chain ∧
      chainOf d (.new peerKey reliable priority) =
        some ⟨slot.lastSn, slot.deadlineMs, chain.buf⟩ := by
  rw [findActive_eq] at hidx
  obtain ⟨slot, hslot, hkey, hholder⟩ := holder_of_holderIdx hidx
  rcases settled_cases (h.settled slot (List.mem_of_getElem? hslot)) with ⟨_, hnone, _⟩ |
    ⟨_, chain, hengine, _, hchain⟩
  · simp [hkey] at hnone
  · refine ⟨slot, chain, hslot, hengine, hkey, hchain, ?_⟩
    simp [chainOf, hholder, opened, hchain]

theorem chainOf_of_findActive {peerKey : Bytes} {reliable : Bool} {priority : Priority}
    (hidx : d.findActive peerKey reliable priority = none) :
    holder Slot.key (.new peerKey reliable priority) d.slots = none ∧
      chainOf d (.new peerKey reliable priority) = none := by
  rw [findActive_eq, holderIdx_eq_none_iff] at hidx
  exact ⟨hidx, by simp [chainOf, hidx]⟩

theorem holder_of_chainOf (h : Inv d) {k : ChainKey} (hk : chainOf d k = none) :
    holder Slot.key k d.slots = none := by
  rcases hholder : holder Slot.key k d.slots with _ | slot
  · rfl
  · obtain ⟨hmem, hkey⟩ := (holder_eq_some_iff h.distinct).mp hholder
    have hchain := chain_of_settled (h.settled slot hmem)
    rw [hkey] at hchain
    obtain ⟨chain, hc⟩ := Option.isSome_iff_exists.mp hchain
    simp [chainOf, hholder, opened, hc] at hk

section Parts

variable {idx : ℕ} {slot : Slot} {chain : HeapChain}

theorem stage_set (hidx : idx < d.slots.length) (slot : Slot) (hchain : slot.chain = some chain)
    {payload : Bytes} (hfits : chain.buf.length + payload.length ≤ cap) :
    ({ d with slots := d.slots.set idx slot } : ReassemblyDispatcher slotCount cap).stage idx
      payload = some { d with
        slots := d.slots.set idx { slot with chain := some ⟨chain.buf ++ payload⟩ } } := by
  simp [stage, hidx, hchain, HeapStaging.append, Nat.not_lt.mpr hfits]

theorem complete_set (hidx : idx < d.slots.length) (slot : Slot)
    (hengine : slot.engine = .complete) (hchain : slot.chain = some chain) (lend : Bool) :
    ({ d with slots := d.slots.set idx slot } : ReassemblyDispatcher slotCount cap).complete idx
      lend = some ({ d with
        slots := d.slots.set idx Slot.new, staging := d.staging.release }, chain.buf) := by
  cases lend
  · simp [complete, hidx, hchain, release_terminal (.inr (.inl hengine))]
  · have hrelease := @release_terminal { slot with chain := none } (.inr (.inl hengine))
      d.staging.release
    simp [complete, hidx, hchain, HeapStaging.lend, HeapStaging.release] at hrelease ⊢
    simp [hrelease]

theorem abort_spec (h : Inv d) (hslot : d.slots[idx]? = some slot) {k : ChainKey}
    (hengine : slot.engine = .receiving) (hkey : slot.key = some k) (event : SlotEvent)
    (hevent : event.isAbort = true) (reason : AbortReason) :
    ∃ d', d.abort idx event reason = some (d', .aborted reason) ∧ Moves d d' k none := by
  have hchain : slot.chain.isSome = true := by
    rw [chain_of_settled (h.settled slot (List.mem_of_getElem? hslot)), hkey]
    rfl
  have hrelease := @release_terminal { slot with engine := .aborted } (.inl rfl) d.staging
  refine ⟨_, ?_, moves_free h hslot hkey⟩
  simp [abort, hslot, drive_abort hengine hevent, hrelease, hchain]

end Parts

/-- A sequence of calls that moves the chain of `k` to `r.1` and delivers `r.2`. -/
def Yields (d : ReassemblyDispatcher slotCount cap) (k : ChainKey)
    (result : Option (ReassemblyDispatcher slotCount cap × IngestOutcome × Option Bytes))
    (r : Option OpenChain × Option Bytes) : Prop :=
  ∃ d' outcome, result = some (d', outcome, r.2) ∧ Moves d d' k r.1

theorem chainAdmits_iff {chain : HeapChain} {len bound : ℕ} :
    chainAdmits cap chain len bound = true ↔ chain.buf.length + len ≤ min bound cap := by
  simp only [chainAdmits, HeapStaging.fits, Bool.and_eq_true, decide_eq_true_eq]
  omega

theorem ingestContinuation_spec (h : Inv d) {idx : ℕ} {slot : Slot} {chain : HeapChain}
    (hslot : d.slots[idx]? = some slot) (hengine : slot.engine = .receiving)
    (frag : Fragment) (hkey : slot.key = some frag.key) (hchain : slot.chain = some chain)
    (ring : SnRing) (lend : Bool) :
    Yields d frag.key (d.ingestContinuation idx frag ring lend)
      (extendChain d.maxMessageBytes ring ⟨slot.lastSn, slot.deadlineMs, chain.buf⟩ frag) := by
  have hidx : idx < d.slots.length := (List.getElem?_eq_some_iff.mp hslot).1
  unfold Yields ingestContinuation extendChain
  rcases hring : ring.admits slot.lastSn frag.sn with reason | _
  · obtain ⟨d', habort, hmove⟩ := abort_spec h hslot hengine hkey .fragmentOoo rfl reason
    exact ⟨d', .aborted reason, by simp [hslot, hring, habort], hmove⟩
  by_cases hfits : d.maxMessageBytes < chain.buf.length + frag.payload.length
  · have hno : chainAdmits cap chain frag.payload.length d.config.maxMessageBytes = false := by
      rw [← Bool.not_eq_true, chainAdmits_iff]
      exact Nat.not_le.mpr hfits
    obtain ⟨d', habort, hmove⟩ := abort_spec (moves_noteCapacityOverflow h frag.key).inv hslot
      hengine hkey .codecError rfl .capacityOverflow
    refine ⟨d', .aborted .capacityOverflow, ?_, ?_⟩
    · simp [hslot, hring, hchain, hno, habort, hfits]
    · simpa [hfits] using (moves_noteCapacityOverflow h frag.key).trans hmove
  have hle := Nat.not_lt.mp hfits
  have hyes : chainAdmits cap chain frag.payload.length d.config.maxMessageBytes = true :=
    chainAdmits_iff.mpr hle
  have hcap : chain.buf.length + frag.payload.length ≤ cap := hle.trans (min_le_right _ _)
  by_cases hmore : frag.more = 0
  · let mid : Slot := { slot with engine := .complete }
    have hdrive : slot.drive (.fragmentChunk 0) = (mid, [.finalizes]) := by
      simp [drive_chunk_receiving hengine, mid]
    have hstage := stage_set hidx mid hchain hcap
    have hcomplete := complete_set hidx { mid with chain := some ⟨chain.buf ++ frag.payload⟩ } rfl
      rfl lend
    refine ⟨_, .reassembled, ?_, by simpa [hfits, hmore] using moves_free h hslot hkey⟩
    simp [hslot, hring, hchain, hyes, hdrive, hstage, hcomplete, hfits, hmore]
  · let mid : Slot := { slot with engine := .receiving }
    have hdrive : slot.drive (.fragmentChunk frag.more) = (mid, [.appends]) := by
      simp [drive_chunk_receiving hengine, hmore, mid]
    have hstage := stage_set hidx mid hchain hcap
    let new : Slot :=
      { mid with chain := some ⟨chain.buf ++ frag.payload⟩, lastSn := frag.sn }
    have hsettled : Settled new := by
      have hnew : new = ⟨.receiving, some frag.key, frag.sn, slot.deadlineMs,
          some ⟨chain.buf ++ frag.payload⟩⟩ := by
        simp [new, mid, hkey]
      rw [hnew]
      exact .busy
    have hmove := moves_set h hslot hsettled d.staging (by simp [new, hchain]) (.inl hkey)
      (.inl hkey)
    refine ⟨{ d with slots := d.slots.set idx new }, .continued, ?_, ?_⟩
    · simp [hslot, hring, hchain, hyes, hdrive, hstage, hfits, hmore, List.getElem?_set_self hidx,
        new]
    · simpa [hfits, hmore, new, mid, hkey, opened] using hmove

/-- The quota and the pool let a chain of this peer start. -/
def hasRoom (d : ReassemblyDispatcher slotCount cap) (peerKey : Bytes) : Bool :=
  decide (d.peerChainCount peerKey < d.config.perPeerQuota.toNat) && d.slots.any Slot.isFree

def deadlineAt (d : ReassemblyDispatcher slotCount cap) (nowMs : ℕ) : ℕ :=
  min (nowMs + d.config.reassemblyTimeoutMs) u64Max

theorem ingestChainStart_spec (h : Inv d) (frag : Fragment) (hnone : chainOf d frag.key = none)
    (nowMs : ℕ) (lend : Bool) :
    Yields d frag.key (d.ingestChainStart frag nowMs lend)
      (beginChain d.maxMessageBytes (deadlineAt d nowMs) (hasRoom d frag.peerKey) frag) := by
  have hstay : Moves d d frag.key none := hnone ▸ moves_refl h frag.key
  unfold Yields ingestChainStart beginChain
  by_cases hquota : d.peerChainCount frag.peerKey ≥ d.config.perPeerQuota.toNat
  · refine ⟨d, .refused .peerQuota, ?_, ?_⟩ <;>
      simp [hquota, hasRoom, Nat.not_lt.mpr hquota, hstay]
  have hq : d.peerChainCount frag.peerKey < d.config.perPeerQuota.toNat := Nat.not_le.mp hquota
  rcases hfree : d.slots.findIdx? Slot.isFree with _ | idx
  · have hany : d.slots.any Slot.isFree = false := by
      simpa [List.findIdx?_eq_none_iff] using hfree
    refine ⟨d, .refused .poolExhausted, ?_, ?_⟩ <;> simp [hquota, hasRoom, hany, hstay]
  obtain ⟨hidx, hisFree, _⟩ := List.findIdx?_eq_some_iff_getElem.mp hfree
  obtain ⟨slot, hslot⟩ : ∃ slot, d.slots[idx]? = some slot := ⟨d.slots[idx], by simp [hidx]⟩
  have hslotFree : slot.isFree = true := by
    rw [List.getElem?_eq_getElem hidx] at hslot
    rwa [← Option.some.inj hslot]
  have hmem := List.mem_of_getElem? hslot
  have hany : d.slots.any Slot.isFree = true := List.any_eq_true.mpr ⟨slot, hmem, hslotFree⟩
  have hroom : hasRoom d frag.peerKey = true := by simp [hasRoom, hq, hany]
  obtain ⟨hengine, hkey, hchain⟩ : slot.engine = .empty ∧ slot.key = none ∧ slot.chain = none := by
    rcases settled_cases (h.settled slot hmem) with hs | ⟨_, _, _, hk, _⟩
    · exact hs
    · simp [Slot.isFree, hk] at hslotFree
  have hsame : d.slots.set idx { slot with chain := none } = d.slots := by
    rw [List.getElem?_eq_getElem hidx] at hslot
    have hslotEq : ({ slot with chain := none } : Slot) = d.slots[idx] := by
      rw [Option.some.inj hslot, ← hchain]
    rw [hslotEq, List.set_getElem_self]
  have hacquire : d.staging.acquire slotCount = some (⟨[]⟩, ⟨d.staging.outstanding + 1⟩) := by
    have hlt := countP_lt_length (p := fun s : Slot => s.chain.isSome) hmem (by simp [hchain])
    rw [← h.counted, h.size] at hlt
    simp [HeapStaging.acquire, Nat.not_le.mpr hlt]
  by_cases hfits : d.maxMessageBytes < frag.payload.length
  · have hno : chainAdmits cap ⟨[]⟩ frag.payload.length d.config.maxMessageBytes = false := by
      rw [← Bool.not_eq_true, chainAdmits_iff, List.length_nil, Nat.zero_add]
      exact Nat.not_le.mpr hfits
    have hback : ({ d with
        slots := d.slots.set idx { slot with chain := none },
        staging := HeapStaging.release ⟨d.staging.outstanding + 1⟩ } :
          ReassemblyDispatcher slotCount cap) = d := by
      rw [hsame]
      rfl
    refine ⟨d.noteCapacityOverflow, .aborted .capacityOverflow, ?_, ?_⟩
    · simp [hquota, hslot, hacquire, hno, hback, hroom, hfits]
    · simpa [hroom, hfits, hnone] using moves_noteCapacityOverflow h frag.key
  have hle := Nat.not_lt.mp hfits
  have hyes : chainAdmits cap ⟨[]⟩ frag.payload.length d.config.maxMessageBytes = true :=
    chainAdmits_iff.mpr ((Nat.zero_add _).le.trans hle)
  have hcap : (HeapChain.mk []).buf.length + frag.payload.length ≤ cap := by
    simpa using hle.trans (min_le_right _ _)
  have hholder := holder_of_chainOf h hnone
  have hmove : ∀ {new : Slot} {staging : HeapStaging}, Settled new →
      new.key = some frag.key ∨ new.key = none →
      staging.outstanding = d.staging.outstanding + (if new.chain.isSome then 1 else 0) →
      Moves d { d with slots := d.slots.set idx new, staging } frag.key
        (if new.key = some frag.key then opened new else none) := by
    intro new staging hnew hk hcount
    exact moves_set h hslot hnew staging (by simpa [hchain] using hcount) (.inr ⟨hkey, hholder⟩) hk
  by_cases hmore : frag.more = 0
  · have hdrive : Slot.drive { slot with chain := some ⟨[]⟩ } (.fragmentChunk 0) =
        ({ slot with engine := .complete, chain := some ⟨[]⟩ }, [.begins, .finalizes]) := by
      simpa using @drive_chunk_empty { slot with chain := some ⟨[]⟩ } hengine 0
    have hstage := @stage_set slotCount cap { d with staging := ⟨d.staging.outstanding + 1⟩ } idx _ hidx
      ⟨.complete, some frag.key, frag.sn, deadlineAt d nowMs, some ⟨[]⟩⟩ rfl _ hcap
    have hcomplete := @complete_set slotCount cap { d with staging := ⟨d.staging.outstanding + 1⟩ } idx _ hidx
      ⟨.complete, some frag.key, frag.sn, deadlineAt d nowMs, some ⟨frag.payload⟩⟩ rfl rfl lend
    simp only [List.nil_append, deadlineAt, HeapStaging.release, Nat.add_sub_cancel]
      at hstage hcomplete
    refine ⟨{ d with slots := d.slots.set idx Slot.new }, .reassembled, ?_, ?_⟩
    · simp [hquota, hslot, hacquire, hyes, hroom, hfits, hmore, hdrive, hstage, hcomplete]
    · simpa [hroom, hfits, hmore, Slot.new] using
        @hmove Slot.new d.staging settled_new (.inr rfl) (by simp [Slot.new])
  · have hdrive : Slot.drive { slot with chain := some ⟨[]⟩ } (.fragmentChunk frag.more) =
        ({ slot with engine := .receiving, chain := some ⟨[]⟩ }, [.begins]) := by
      simpa [hmore] using @drive_chunk_empty { slot with chain := some ⟨[]⟩ } hengine frag.more
    have hstage := @stage_set slotCount cap { d with staging := ⟨d.staging.outstanding + 1⟩ } idx _ hidx
      ⟨.receiving, some frag.key, frag.sn, deadlineAt d nowMs, some ⟨[]⟩⟩ rfl _ hcap
    simp only [List.nil_append, deadlineAt] at hstage
    have hbusy := @hmove ⟨.receiving, some frag.key, frag.sn, deadlineAt d nowMs,
      some ⟨frag.payload⟩⟩ ⟨d.staging.outstanding + 1⟩ .busy (.inl rfl) rfl
    refine ⟨{ d with
      slots := d.slots.set idx ⟨.receiving, some frag.key, frag.sn, deadlineAt d nowMs,
        some ⟨frag.payload⟩⟩, staging := ⟨d.staging.outstanding + 1⟩ }, .begun, ?_, ?_⟩
    · simp [hquota, hslot, hacquire, hyes, hroom, hfits, hmore, hdrive, hstage, deadlineAt]
    · simpa [hroom, hfits, hmore, opened] using hbusy

end WatchingZenoh.ReassemblyRefine
