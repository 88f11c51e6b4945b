import WatchingZenoh.Library.Steps
import WatchingZenoh.ReassemblySlot

/-! The reassembly router over a fixed number of slots. A failed assertion or `expect` of the source is
`none`; what `deliver` is called with is part of the result. -/

namespace WatchingZenoh.ReassemblyDispatch

open FrameEncode ReassemblySlot

/-- The largest `u64`, at which deadlines and counters saturate. -/
def u64Max : ℕ := 2 ^ 64 - 1

structure ReassemblyConfig where
  perPeerQuota : UInt16
  reassemblyTimeoutMs : ℕ
  fragmentationMarkers : Bool
  maxMessageBytes : ℕ
  deriving DecidableEq

inductive AbortReason where
  | outOfOrder
  | capacityOverflow
  | senderDropped
  | superseded
  | unresolvable
  deriving DecidableEq, Repr

inductive RefuseReason where
  | peerQuota
  | poolExhausted
  | missingStartMarker
  deriving DecidableEq, Repr

inductive IngestOutcome where
  | begun
  | continued
  | reassembled
  | aborted (reason : AbortReason)
  | refused (reason : RefuseReason)
  deriving DecidableEq, Repr

inductive SnRing where
  | known (mask : UInt64)
  | unknown
  deriving DecidableEq

/-- Judge the step from a chain's last sequence number to the next one. Without the ring only `+ 1`,
which every ring admits, is let through. -/
def SnRing.admits : SnRing → UInt64 → UInt64 → Except AbortReason Unit
  | .known mask, last, next =>
    if Sn.consecutive mask last next then .ok () else .error .outOfOrder
  | .unknown, last, next =>
    if last.toNat + 1 = next.toNat then .ok () else .error .unresolvable

structure FragmentMarkers where
  first : Bool
  dropped : Bool
  deriving DecidableEq

structure Fragment where
  peerKey : Bytes
  reliable : Bool
  sn : UInt64
  more : UInt8
  payload : Bytes
  priority : Priority
  markers : FragmentMarkers
  deriving DecidableEq

def Fragment.key (frag : Fragment) : ChainKey := .new frag.peerKey frag.reliable frag.priority

structure ReassemblyDispatcher (slotCount cap : ℕ) where
  slots : List Slot
  config : ReassemblyConfig
  staging : HeapStaging
  capacityRefusals : ℕ
  deriving DecidableEq

namespace ReassemblyDispatcher

variable {slotCount cap : ℕ}

def new (config : ReassemblyConfig) : ReassemblyDispatcher slotCount cap :=
  ⟨List.replicate slotCount Slot.new, config, ⟨0⟩, 0⟩

def maxMessageBytes (d : ReassemblyDispatcher slotCount cap) : ℕ := min d.config.maxMessageBytes cap

def activeChains (d : ReassemblyDispatcher slotCount cap) : ℕ := d.slots.countP fun s => !s.isFree

def stagingAvailable (d : ReassemblyDispatcher slotCount cap) : ℕ := d.staging.available slotCount

def chainAdmits (cap : ℕ) (chain : HeapChain) (len maxMessageBytes : ℕ) : Bool :=
  HeapStaging.fits cap chain len && decide (chain.buf.length + len ≤ maxMessageBytes)

def noteCapacityOverflow (d : ReassemblyDispatcher slotCount cap) :
    ReassemblyDispatcher slotCount cap :=
  { d with capacityRefusals := min (d.capacityRefusals + 1) u64Max }

def findActive (d : ReassemblyDispatcher slotCount cap) (peerKey : Bytes) (reliable : Bool)
    (priority : Priority) : Option ℕ :=
  d.slots.findIdx? fun s =>
    match s.key with
    | some k => k.reliable == reliable && k.priority == priority && k.samePeer peerKey
    | none => false

def peerChainCount (d : ReassemblyDispatcher slotCount cap) (peerKey : Bytes) : ℕ :=
  (d.slots.countP fun s => s.key.any (·.samePeer peerKey)) % 2 ^ 16

/-- Send the open chain an abort event and free its slot. -/
def abort (d : ReassemblyDispatcher slotCount cap) (idx : ℕ) (event : SlotEvent)
    (reason : AbortReason) : Option (ReassemblyDispatcher slotCount cap × IngestOutcome) := do
  let slot ← d.slots[idx]?
  let (slot, duties) := slot.drive event
  if .aborts ∈ duties then
    let (slot, staging, _) := slot.release d.staging
    some ({ d with slots := d.slots.set idx slot, staging }, .aborted reason)
  else none

/-- The `First` and `Drop` rules; an outcome means that the fragment is consumed here. -/
def applyChainBoundaryMarkers (d : ReassemblyDispatcher slotCount cap) (frag : Fragment) :
    Option (ReassemblyDispatcher slotCount cap × Option IngestOutcome) := do
  let active := d.findActive frag.peerKey frag.reliable frag.priority
  if frag.markers.first then
    match active with
    | some idx =>
      let (d, _) ← d.abort idx .slotEvict .superseded
      some (d, none)
    | none => some (d, none)
  else
    match active with
    | none => some (d, some (.refused .missingStartMarker))
    | some idx =>
      if frag.markers.dropped then
        let (d, outcome) ← d.abort idx .fragmentDrop .senderDropped
        some (d, some outcome)
      else some (d, none)

/-- Stage the payload onto the chain of the slot. -/
def stage (d : ReassemblyDispatcher slotCount cap) (idx : ℕ) (payload : Bytes) :
    Option (ReassemblyDispatcher slotCount cap) := do
  let slot ← d.slots[idx]?
  let chain ← slot.chain
  let chain ← HeapStaging.append cap chain payload
  some { d with slots := d.slots.set idx { slot with chain := some chain } }

/-- Hand the completed chain to `deliver` and release the slot; a lent chain leaves the slot
first. -/
def complete (d : ReassemblyDispatcher slotCount cap) (idx : ℕ) (lend : Bool) :
    Option (ReassemblyDispatcher slotCount cap × Bytes) := do
  let slot ← d.slots[idx]?
  let chain ← slot.chain
  if lend then
    let (bytes, staging) := d.staging.lend chain
    let (slot, staging, _) := { slot with chain := none }.release staging
    some ({ d with slots := d.slots.set idx slot, staging }, bytes)
  else
    let (slot, staging, _) := slot.release d.staging
    some ({ d with slots := d.slots.set idx slot, staging }, chain.buf)

def ingestChainStart (d : ReassemblyDispatcher slotCount cap) (frag : Fragment) (nowMs : ℕ)
    (lend : Bool) : Option (ReassemblyDispatcher slotCount cap × IngestOutcome × Option Bytes) :=
  if d.peerChainCount frag.peerKey ≥ d.config.perPeerQuota.toNat then
    some (d, .refused .peerQuota, none)
  else
    match d.slots.findIdx? Slot.isFree with
    | none => some (d, .refused .poolExhausted, none)
    | some idx => do
      let deadlineMs := min (nowMs + d.config.reassemblyTimeoutMs) u64Max
      let slot ← d.slots[idx]?
      match d.staging.acquire slotCount with
      | none =>
        some ({ d with slots := d.slots.set idx { slot with chain := none } },
          .refused .poolExhausted, none)
      | some (chain, staging) =>
        if !chainAdmits cap chain frag.payload.length d.config.maxMessageBytes then
          let d := { d with
            slots := d.slots.set idx { slot with chain := none }, staging := staging.release }
          some (d.noteCapacityOverflow, .aborted .capacityOverflow, none)
        else
          let (slot, duties) := { slot with chain := some chain }.drive (.fragmentChunk frag.more)
          if .begins ∈ duties then
            let slot := { slot with key := some frag.key, lastSn := frag.sn, deadlineMs }
            let d ← stage { d with slots := d.slots.set idx slot, staging } idx frag.payload
            if .finalizes ∈ duties then
              let (d, message) ← d.complete idx lend
              some (d, .reassembled, some message)
            else some (d, .begun, none)
          else none

def ingestContinuation (d : ReassemblyDispatcher slotCount cap) (idx : ℕ) (frag : Fragment)
    (ring : SnRing) (lend : Bool) :
    Option (ReassemblyDispatcher slotCount cap × IngestOutcome × Option Bytes) := do
  let slot ← d.slots[idx]?
  match ring.admits slot.lastSn frag.sn with
  | .error reason =>
    let (d, outcome) ← d.abort idx .fragmentOoo reason
    some (d, outcome, none)
  | .ok () =>
    let chain ← slot.chain
    if !chainAdmits cap chain frag.payload.length d.config.maxMessageBytes then
      let (d, outcome) ← d.noteCapacityOverflow.abort idx .codecError .capacityOverflow
      some (d, outcome, none)
    else
      let (slot, duties) := slot.drive (.fragmentChunk frag.more)
      let d := { d with slots := d.slots.set idx slot }
      if .appends ∈ duties then
        let d ← d.stage idx frag.payload
        let slot ← d.slots[idx]?
        some ({ d with slots := d.slots.set idx { slot with lastSn := frag.sn } }, .continued, none)
      else if .finalizes ∈ duties then
        let d ← d.stage idx frag.payload
        let (d, message) ← d.complete idx lend
        some (d, .reassembled, some message)
      else none

def ingestDelivering (d : ReassemblyDispatcher slotCount cap) (frag : Fragment) (ring : SnRing)
    (nowMs : ℕ) (lend : Bool) :
    Option (ReassemblyDispatcher slotCount cap × IngestOutcome × Option Bytes) := do
  let (d, consumed) ←
    if d.config.fragmentationMarkers then d.applyChainBoundaryMarkers frag else some (d, none)
  match consumed with
  | some outcome => some (d, outcome, none)
  | none =>
    match d.findActive frag.peerKey frag.reliable frag.priority with
    | some idx => d.ingestContinuation idx frag ring lend
    | none => d.ingestChainStart frag nowMs lend

def setFragmentationMarkers (d : ReassemblyDispatcher slotCount cap) (on : Bool) :
    ReassemblyDispatcher slotCount cap :=
  { d with config := { d.config with fragmentationMarkers := on } }

def setMaxMessageBytes (d : ReassemblyDispatcher slotCount cap) (bytes : ℕ) :
    ReassemblyDispatcher slotCount cap :=
  { d with config := { d.config with maxMessageBytes := bytes } }

def abortChannel (d : ReassemblyDispatcher slotCount cap) (peerKey : Bytes) (priority : Priority)
    (reliable : Bool) : Option (ReassemblyDispatcher slotCount cap × Bool) := do
  match d.findActive peerKey reliable priority with
  | some idx =>
    let (d, _) ← d.abort idx .fragmentOoo .outOfOrder
    some (d, true)
  | none => some (d, false)

end ReassemblyDispatcher

structure ChainLoss where
  chains : ℕ
  bytes : ℕ
  deriving DecidableEq, Repr

/-- One slot under a sweep: past its deadline it is timed out and released. -/
def sweepSlot (nowMs : ℕ) (slot : Slot) (staging : HeapStaging) (loss : ChainLoss) :
    Slot × HeapStaging × ChainLoss :=
  if slot.isFree || decide (nowMs < slot.deadlineMs) then (slot, staging, loss)
  else
    let (slot, _) := slot.drive .reassemblyTimeout
    let staged := (slot.chain.map (·.buf.length)).getD 0
    let (slot, staging, released) := slot.release staging
    (slot, staging, if released then ⟨loss.chains + 1, loss.bytes + staged⟩ else loss)

def sweepSlots (nowMs : ℕ) : List Slot → HeapStaging → ChainLoss →
    List Slot × HeapStaging × ChainLoss
  | [], staging, loss => ([], staging, loss)
  | slot :: slots, staging, loss =>
    let (slot, staging, loss) := sweepSlot nowMs slot staging loss
    let (slots, staging, loss) := sweepSlots nowMs slots staging loss
    (slot :: slots, staging, loss)

namespace ReassemblyDispatcher

variable {slotCount cap : ℕ}

def sweepCounting (d : ReassemblyDispatcher slotCount cap) (nowMs : ℕ) :
    ReassemblyDispatcher slotCount cap × ChainLoss :=
  let (slots, staging, loss) := sweepSlots nowMs d.slots d.staging ⟨0, 0⟩
  ({ d with slots, staging }, loss)

end ReassemblyDispatcher

/-- A call on the router. A fragment comes with its ring; a completed chain is lent or borrowed. -/
inductive Call where
  | ingest (frag : Fragment) (ring : SnRing) (nowMs : ℕ) (lend : Bool)
  | abortChannel (peerKey : Bytes) (priority : Priority) (reliable : Bool)
  | sweep (nowMs : ℕ)
  | setFragmentationMarkers (on : Bool)
  | setMaxMessageBytes (bytes : ℕ)

section Run

variable {slotCount cap : ℕ}

/-- One call, and the message it hands to `deliver`. -/
def call (d : ReassemblyDispatcher slotCount cap) :
    Call → Option (ReassemblyDispatcher slotCount cap × Option Bytes)
  | .ingest frag ring nowMs lend =>
    (d.ingestDelivering frag ring nowMs lend).map fun r => (r.1, r.2.2)
  | .abortChannel peerKey priority reliable =>
    (d.abortChannel peerKey priority reliable).map fun r => (r.1, none)
  | .sweep nowMs => some ((d.sweepCounting nowMs).1, none)
  | .setFragmentationMarkers on => some (d.setFragmentationMarkers on, none)
  | .setMaxMessageBytes bytes => some (d.setMaxMessageBytes bytes, none)

/-- A sequence of calls, with what each of them delivers. -/
def run : ReassemblyDispatcher slotCount cap → List Call →
    Option (ReassemblyDispatcher slotCount cap × List (Option Bytes)) := Steps.run call

end Run

end WatchingZenoh.ReassemblyDispatch
