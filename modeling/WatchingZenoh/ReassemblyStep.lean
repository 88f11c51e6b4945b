import WatchingZenoh.ReassemblyRefine

/-! Every call of the router, seen from the keys: it returns, keeps the invariant, and an ingest does
`absorb` to the chain of its key, an abort ends one chain, and a sweep ends the chains whose deadline
is past. -/

namespace WatchingZenoh.ReassemblyStep

open FrameEncode ReassemblySlot ReassemblyDispatch ReassemblyDispatcher ReassemblyChain
open ReassemblyRefine KeyedSlots

variable {slotCount cap : ℕ} {d d' : ReassemblyDispatcher slotCount cap}

theorem findActive_of_chainOf (h : Inv d) {peerKey : Bytes} {reliable : Bool} {priority : Priority}
    (hnone : chainOf d (.new peerKey reliable priority) = none) :
    d.findActive peerKey reliable priority = none := by
  rw [findActive_eq, holderIdx_eq_none_iff]
  exact holder_of_chainOf h hnone

section Ingest

variable {k : ChainKey} {chain : Option OpenChain}
  {result : Option (ReassemblyDispatcher slotCount cap × IngestOutcome × Option Bytes)}
  {r : Option OpenChain × Option Bytes}

theorem yields_after (hmove : Moves d d' k chain) (h : Yields d' k result r) :
    Yields d k result r := by
  obtain ⟨d'', outcome, hresult, hmove'⟩ := h
  exact ⟨d'', outcome, hresult, hmove.trans hmove'⟩

theorem deadlineAt_of_config (h : d'.config = d.config) (nowMs : ℕ) :
    deadlineAt d' nowMs = deadlineAt d nowMs := by
  rw [deadlineAt, deadlineAt, h]

theorem maxMessageBytes_of_config (h : d'.config = d.config) :
    d'.maxMessageBytes = d.maxMessageBytes := by
  rw [maxMessageBytes, maxMessageBytes, h]

variable (frag : Fragment) (ring : SnRing) (nowMs : ℕ) (lend : Bool)

theorem ingestContinuation_of_findActive (h : Inv d) {idx : ℕ}
    (hidx : d.findActive frag.peerKey frag.reliable frag.priority = some idx) :
    ∃ chain, chainOf d frag.key = some chain ∧
      Yields d frag.key (d.ingestContinuation idx frag ring lend)
        (extendChain d.maxMessageBytes ring chain frag) := by
  obtain ⟨slot, chain, hslot, hengine, hkey, hchain, hof⟩ := busy_of_findActive h hidx
  exact ⟨_, hof, ingestContinuation_spec h hslot hengine frag hkey hchain ring lend⟩

theorem ingest_first (h : Inv d) (hmarkers : d.config.fragmentationMarkers = true)
    (hfirst : frag.markers.first = true) :
    ∃ room, Yields d frag.key (d.ingestDelivering frag ring nowMs lend)
        (beginChain d.maxMessageBytes (deadlineAt d nowMs) room frag) ∧
      (chainOf d frag.key = none → room = hasRoom d frag.peerKey) := by
  rcases hidx : d.findActive frag.peerKey frag.reliable frag.priority with _ | idx
  · have hnone := (chainOf_of_findActive hidx).2
    refine ⟨hasRoom d frag.peerKey, ?_, fun _ => rfl⟩
    simpa [ingestDelivering, hmarkers, applyChainBoundaryMarkers, hfirst, hidx] using
      ingestChainStart_spec h frag hnone nowMs lend
  · obtain ⟨slot, chain, hslot, hengine, hkey, _, hof⟩ := busy_of_findActive h hidx
    have hkey : slot.key = some frag.key := hkey
    obtain ⟨d', habort, hmove⟩ := abort_spec h hslot hengine hkey .slotEvict rfl .superseded
    have hidx' := findActive_of_chainOf hmove.inv hmove.here
    refine ⟨hasRoom d' frag.peerKey, ?_, ?_⟩
    · have hstart := ingestChainStart_spec hmove.inv frag hmove.here nowMs lend
      rw [maxMessageBytes_of_config hmove.config, deadlineAt_of_config hmove.config] at hstart
      simpa [ingestDelivering, hmarkers, applyChainBoundaryMarkers, hfirst, hidx, habort, hidx']
        using yields_after hmove hstart
    · intro hnone
      simp [Fragment.key, hof] at hnone

theorem ingest_spec (h : Inv d) :
    ∃ room, Yields d frag.key (d.ingestDelivering frag ring nowMs lend)
        (absorb d.config.fragmentationMarkers d.maxMessageBytes (deadlineAt d nowMs) ring room
          (chainOf d frag.key) frag) ∧
      (chainOf d frag.key = none → room = hasRoom d frag.peerKey) := by
  cases hmarkers : d.config.fragmentationMarkers with
  | false =>
    refine ⟨hasRoom d frag.peerKey, ?_, fun _ => rfl⟩
    rcases hidx : d.findActive frag.peerKey frag.reliable frag.priority with _ | idx
    · have hnone : chainOf d frag.key = none := (chainOf_of_findActive hidx).2
      simpa [ingestDelivering, hmarkers, hidx, absorb, hnone] using
        ingestChainStart_spec h frag hnone nowMs lend
    · obtain ⟨chain, hof, hyields⟩ := ingestContinuation_of_findActive frag ring lend h hidx
      simpa [ingestDelivering, hmarkers, hidx, absorb, hof] using hyields
  | true =>
    cases hfirst : frag.markers.first with
    | true => simpa [absorb, hfirst] using ingest_first frag ring nowMs lend h hmarkers hfirst
    | false =>
      refine ⟨hasRoom d frag.peerKey, ?_, fun _ => rfl⟩
      rcases hidx : d.findActive frag.peerKey frag.reliable frag.priority with _ | idx
      · have hnone : chainOf d frag.key = none := (chainOf_of_findActive hidx).2
        refine ⟨d, .refused .missingStartMarker, ?_, ?_⟩
        · simp [ingestDelivering, hmarkers, applyChainBoundaryMarkers, hfirst, hidx, absorb, hnone]
        · simpa [absorb, hnone, hfirst] using moves_refl h frag.key
      · obtain ⟨slot, chain, hslot, hengine, hkey, _, hof⟩ := busy_of_findActive h hidx
        cases hdropped : frag.markers.dropped with
        | true =>
          obtain ⟨d', habort, hmove⟩ := abort_spec h hslot hengine hkey .fragmentDrop rfl
            .senderDropped
          refine ⟨d', .aborted .senderDropped, ?_, ?_⟩
          · simp [ingestDelivering, hmarkers, applyChainBoundaryMarkers, hfirst, hidx, hdropped,
              habort, absorb, Fragment.key, hof]
          · simpa [absorb, hfirst, hdropped, Fragment.key, hof] using hmove
        | false =>
          obtain ⟨chain, hof, hyields⟩ := ingestContinuation_of_findActive frag ring lend h hidx
          simpa [ingestDelivering, hmarkers, applyChainBoundaryMarkers, hfirst, hidx, hdropped,
            absorb, hof] using hyields

end Ingest

theorem abortChannel_spec (h : Inv d) (peerKey : Bytes) (priority : Priority) (reliable : Bool) :
    ∃ d' cleared, d.abortChannel peerKey priority reliable = some (d', cleared) ∧
      Moves d d' (.new peerKey reliable priority) none := by
  rcases hidx : d.findActive peerKey reliable priority with _ | idx
  · have hnone := (chainOf_of_findActive hidx).2
    exact ⟨d, false, by simp [abortChannel, hidx], hnone ▸ moves_refl h _⟩
  · obtain ⟨slot, chain, hslot, hengine, hkey, _⟩ := busy_of_findActive h hidx
    obtain ⟨d', habort, hmove⟩ := abort_spec h hslot hengine hkey .fragmentOoo rfl .outOfOrder
    exact ⟨d', true, by simp [abortChannel, hidx, habort], hmove⟩

section Sweep

def swept (nowMs : ℕ) (slot : Slot) : Slot :=
  if slot.isFree || decide (nowMs < slot.deadlineMs) then slot else Slot.new

theorem sweepSlot_cases {slot : Slot} (h : Settled slot) (nowMs : ℕ) (staging : HeapStaging)
    (loss : ChainLoss) :
    (sweepSlot nowMs slot staging loss = (slot, staging, loss) ∧ swept nowMs slot = slot) ∨
      (∃ loss', sweepSlot nowMs slot staging loss = (Slot.new, staging.release, loss')) ∧
        swept nowMs slot = Slot.new ∧ slot.chain.isSome = true := by
  unfold sweepSlot swept
  split_ifs with hkeep
  · exact .inl ⟨rfl, rfl⟩
  · rcases settled_cases h with ⟨_, hkey, _⟩ | ⟨key, chain, hengine, _, hchain⟩
    · simp [Slot.isFree, hkey] at hkeep
    · have hrelease := @release_terminal { slot with engine := .timedOut } (.inr (.inr rfl)) staging
      simp only [hchain, Option.isSome_some, if_true] at hrelease
      refine .inr ⟨⟨⟨loss.chains + 1, loss.bytes + chain.buf.length⟩, ?_⟩, rfl, by simp [hchain]⟩
      simp [drive_timeout hengine, hchain, hrelease]

theorem key_of_swept {nowMs : ℕ} {slot : Slot} {k : ChainKey}
    (h : (swept nowMs slot).key = some k) : slot.key = some k := by
  unfold swept at h
  split_ifs at h
  · exact h
  · simp [Slot.new] at h

theorem settled_swept {slot : Slot} (h : Settled slot) (nowMs : ℕ) : Settled (swept nowMs slot) := by
  unfold swept
  split_ifs
  · exact h
  · exact settled_new

theorem sweepSlots_cons (nowMs : ℕ) (slot : Slot) (slots : List Slot) (staging : HeapStaging)
    (loss : ChainLoss) :
    sweepSlots nowMs (slot :: slots) staging loss =
      let one := sweepSlot nowMs slot staging loss
      let rest := sweepSlots nowMs slots one.2.1 one.2.2
      (one.1 :: rest.1, rest.2) := rfl

theorem sweepSlots_eq (nowMs : ℕ) {slots : List Slot} (h : ∀ slot ∈ slots, Settled slot)
    (staging : HeapStaging) (loss : ChainLoss)
    (hcount : slots.countP (fun slot => slot.chain.isSome) ≤ staging.outstanding) :
    (sweepSlots nowMs slots staging loss).1 = slots.map (swept nowMs) ∧
      (sweepSlots nowMs slots staging loss).2.1.outstanding +
          slots.countP (fun slot => slot.chain.isSome) =
        staging.outstanding + (slots.map (swept nowMs)).countP fun slot => slot.chain.isSome := by
  induction slots generalizing staging loss with
  | nil => exact ⟨rfl, rfl⟩
  | cons slot slots ih =>
    have htail : ∀ s ∈ slots, Settled s := fun s hs => h s (List.mem_cons_of_mem _ hs)
    rw [List.countP_cons] at hcount
    rcases sweepSlot_cases (h slot (List.mem_cons_self ..)) nowMs staging loss with
      ⟨hone, hswept⟩ | ⟨⟨loss', hone⟩, hswept, hchain⟩
    · obtain ⟨hrest, hsum⟩ := ih htail staging loss (by omega)
      rw [sweepSlots_cons, hone]
      refine ⟨by simp [hrest, hswept], ?_⟩
      simp only [List.map_cons, List.countP_cons, hswept]
      omega
    · simp only [hchain, if_true] at hcount
      obtain ⟨hrest, hsum⟩ := ih htail staging.release loss' (by simp [HeapStaging.release]; omega)
      rw [sweepSlots_cons, hone]
      refine ⟨by simp [hrest, hswept], ?_⟩
      have hreleased : staging.release.outstanding + 1 = staging.outstanding := by
        simp only [HeapStaging.release]
        omega
      simp only [List.map_cons, List.countP_cons, hswept, hchain, Slot.new, Option.isSome_none,
        Bool.false_eq_true, if_true, if_false]
      omega

theorem opened_swept {slot : Slot} (h : Settled slot) {k : ChainKey} (hk : slot.key = some k)
    (nowMs : ℕ) :
    ((some (swept nowMs slot)).filter (·.key == some k)).bind opened =
      (opened slot).filter fun chain => decide (nowMs < chain.deadlineMs) := by
  rcases settled_cases h with ⟨_, hkey, _⟩ | ⟨key, chain, _, _, hchain⟩
  · simp [hkey] at hk
  · by_cases hnow : nowMs < slot.deadlineMs <;>
      simp [swept, Slot.isFree, hk, hnow, opened, hchain, Slot.new, Option.filter]

theorem sweep_spec (h : Inv d) (nowMs : ℕ) :
    Inv (d.sweepCounting nowMs).1 ∧ (d.sweepCounting nowMs).1.config = d.config ∧
      ∀ k, chainOf (d.sweepCounting nowMs).1 k =
        (chainOf d k).filter fun chain => decide (nowMs < chain.deadlineMs) := by
  obtain ⟨hslots, hsum⟩ := sweepSlots_eq nowMs h.settled d.staging ⟨0, 0⟩ h.counted.ge
  refine ⟨⟨?_, ?_, ?_, ?_⟩, rfl, ?_⟩
  · simp [sweepCounting, hslots, h.size]
  · intro slot hslot
    simp only [sweepCounting, hslots, List.mem_map] at hslot
    obtain ⟨slot, hmem, rfl⟩ := hslot
    exact settled_swept (h.settled slot hmem) nowMs
  · simp only [sweepCounting, hslots]
    exact h.distinct.map fun _ _ => key_of_swept
  · have hcounted := h.counted
    change (sweepSlots nowMs d.slots d.staging ⟨0, 0⟩).2.1.outstanding =
      (sweepSlots nowMs d.slots d.staging ⟨0, 0⟩).1.countP fun slot => slot.chain.isSome
    rw [hslots]
    omega
  · intro k
    simp only [chainOf, sweepCounting, hslots, holder_map h.distinct fun _ _ => key_of_swept]
    rcases hheld : holder Slot.key k d.slots with _ | slot
    · rfl
    · obtain ⟨hmem, hk⟩ := (holder_eq_some_iff h.distinct).mp hheld
      exact opened_swept (h.settled slot hmem) hk nowMs

end Sweep

/-- What a call does to the chains, and what it delivers. The free slots and the quota, which a chain
needs to start, are hidden in `room`. -/
def Effect (d d' : ReassemblyDispatcher slotCount cap) : Call → Option Bytes → Prop
  | .ingest frag ring nowMs _, message => ∃ room,
      Moves d d' frag.key (absorb d.config.fragmentationMarkers d.maxMessageBytes
        (deadlineAt d nowMs) ring room (chainOf d frag.key) frag).1 ∧
      message = (absorb d.config.fragmentationMarkers d.maxMessageBytes
        (deadlineAt d nowMs) ring room (chainOf d frag.key) frag).2 ∧
      (chainOf d frag.key = none → room = hasRoom d frag.peerKey)
  | .abortChannel peerKey priority reliable, message =>
      Moves d d' (.new peerKey reliable priority) none ∧ message = none
  | .sweep nowMs, message =>
      Inv d' ∧ d'.config = d.config ∧ message = none ∧ ∀ k, chainOf d' k =
        (chainOf d k).filter fun chain => decide (nowMs < chain.deadlineMs)
  | .setFragmentationMarkers on, message =>
      Inv d' ∧ d'.config = { d.config with fragmentationMarkers := on } ∧ message = none ∧
        ∀ k, chainOf d' k = chainOf d k
  | .setMaxMessageBytes bytes, message =>
      Inv d' ∧ d'.config = { d.config with maxMessageBytes := bytes } ∧ message = none ∧
        ∀ k, chainOf d' k = chainOf d k

theorem inv_of_effect {c : Call} {message : Option Bytes} (h : Effect d d' c message) : Inv d' := by
  cases c with
  | ingest frag ring nowMs lend =>
    obtain ⟨_, hmove, _⟩ := h
    exact hmove.inv
  | abortChannel peerKey priority reliable => exact h.1.inv
  | sweep nowMs => exact h.1
  | setFragmentationMarkers on => exact h.1
  | setMaxMessageBytes bytes => exact h.1

theorem call_effect (h : Inv d) (c : Call) :
    ∃ d' message, call d c = some (d', message) ∧ Effect d d' c message := by
  cases c with
  | ingest frag ring nowMs lend =>
    obtain ⟨room, ⟨d', outcome, hresult, hmove⟩, hroom⟩ := ingest_spec frag ring nowMs lend h
    exact ⟨d', _, by rw [call, hresult]; rfl, room, hmove, rfl, hroom⟩
  | abortChannel peerKey priority reliable =>
    obtain ⟨d', cleared, hresult, hmove⟩ := abortChannel_spec h peerKey priority reliable
    exact ⟨d', none, by rw [call, hresult]; rfl, hmove, rfl⟩
  | sweep nowMs =>
    obtain ⟨hinv, hconfig, hchains⟩ := sweep_spec h nowMs
    exact ⟨_, none, rfl, hinv, hconfig, rfl, hchains⟩
  | setFragmentationMarkers on =>
    exact ⟨_, none, rfl, ⟨h.size, h.settled, h.distinct, h.counted⟩, rfl, rfl, fun _ => rfl⟩
  | setMaxMessageBytes bytes =>
    exact ⟨_, none, rfl, ⟨h.size, h.settled, h.distinct, h.counted⟩, rfl, rfl, fun _ => rfl⟩

end WatchingZenoh.ReassemblyStep
