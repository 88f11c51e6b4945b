import WatchingZenoh.FrameEncode

/-! One reassembly slot: the slot machine of `reassembly_slot.scxml`, the duties its transitions post,
and the chain state the router keeps beside it, with the heap arena the chains are staged in. -/

namespace WatchingZenoh.ReassemblySlot

open FrameEncode

inductive SlotState where
  | empty
  | receiving
  | complete
  | timedOut
  | aborted
  deriving DecidableEq, Repr

/-- `fragment.chunk` carries the `more` bit of the fragment, the others carry nothing. -/
inductive SlotEvent where
  | codecError
  | fragmentChunk (more : UInt8)
  | fragmentDrop
  | fragmentOoo
  | reassemblyTimeout
  | slotEvict
  | slotRelease
  deriving DecidableEq, Repr

inductive SlotAction where
  | beginChain
  | appendFragmentPayload
  | finalizeMessage
  | abortOoo
  | abortPeerDrop
  | abortEvicted
  | abortCodec
  | recordTimeout
  | resetSlot
  deriving DecidableEq, Repr

/-- The transition a state has for an event, and its content. -/
def transition : SlotState → SlotEvent → Option (SlotState × List SlotAction)
  | .empty, .fragmentChunk more =>
    if more ≠ 0 then some (.receiving, [.beginChain])
    else some (.complete, [.beginChain, .finalizeMessage])
  | .receiving, .fragmentChunk more =>
    if more ≠ 0 then some (.receiving, [.appendFragmentPayload])
    else some (.complete, [.finalizeMessage])
  | .receiving, .fragmentOoo => some (.aborted, [.abortOoo])
  | .receiving, .fragmentDrop => some (.aborted, [.abortPeerDrop])
  | .receiving, .slotEvict => some (.aborted, [.abortEvicted])
  | .receiving, .codecError => some (.aborted, [.abortCodec])
  | .receiving, .reassemblyTimeout => some (.timedOut, [.recordTimeout])
  | .complete, .slotRelease => some (.empty, [.resetSlot])
  | .timedOut, .slotRelease => some (.empty, [.resetSlot])
  | .aborted, .slotRelease => some (.empty, [.resetSlot])
  | _, _ => none

inductive Duty where
  | begins
  | appends
  | finalizes
  | aborts
  | resets
  deriving DecidableEq, Repr

/-- What the binding posts for an action; the timeout is a notice and posts nothing. -/
def SlotAction.duty : SlotAction → Option Duty
  | .beginChain => some .begins
  | .appendFragmentPayload => some .appends
  | .finalizeMessage => some .finalizes
  | .abortOoo | .abortPeerDrop | .abortEvicted | .abortCodec => some .aborts
  | .recordTimeout => none
  | .resetSlot => some .resets

def peerKeyMax : ℕ := 16

/-- The key of a chain. The first bytes of the peer key stand for the peer. -/
structure ChainKey where
  peerKey : Bytes
  reliable : Bool
  priority : Priority
  deriving DecidableEq

def ChainKey.new (peerKey : Bytes) (reliable : Bool) (priority : Priority) : ChainKey :=
  ⟨peerKey.take peerKeyMax, reliable, priority⟩

def ChainKey.samePeer (key : ChainKey) (peerKey : Bytes) : Bool :=
  key.peerKey == peerKey.take peerKeyMax

/-- The arena of heap buffers: the bytes live in the handles, and the arena counts them. -/
structure HeapStaging where
  outstanding : ℕ
  deriving DecidableEq

structure HeapChain where
  buf : Bytes
  deriving DecidableEq

namespace HeapStaging

def acquire (slots : ℕ) (staging : HeapStaging) : Option (HeapChain × HeapStaging) :=
  if staging.outstanding ≥ slots then none
  else some (⟨[]⟩, ⟨staging.outstanding + 1⟩)

def release (staging : HeapStaging) : HeapStaging := ⟨staging.outstanding - 1⟩

def lend (staging : HeapStaging) (chain : HeapChain) : Bytes × HeapStaging :=
  (chain.buf, ⟨staging.outstanding - 1⟩)

def append (cap : ℕ) (chain : HeapChain) (payload : Bytes) : Option HeapChain :=
  if chain.buf.length + payload.length > cap then none else some ⟨chain.buf ++ payload⟩

def available (slots : ℕ) (staging : HeapStaging) : ℕ := slots - staging.outstanding

def fits (cap : ℕ) (chain : HeapChain) (len : ℕ) : Bool := chain.buf.length + len ≤ cap

end HeapStaging

structure Slot where
  engine : SlotState
  key : Option ChainKey
  lastSn : UInt64
  deadlineMs : ℕ
  chain : Option HeapChain
  deriving DecidableEq

namespace Slot

def new : Slot := ⟨.empty, none, 0, 0, none⟩

def isFree (slot : Slot) : Bool := slot.key.isNone

/-- Send an event to the machine and drain the duties its transition posted. -/
def drive (slot : Slot) (event : SlotEvent) : Slot × List Duty :=
  match transition slot.engine event with
  | some (state, actions) => ({ slot with engine := state }, actions.filterMap SlotAction.duty)
  | none => (slot, [])

/-- Raise `slot.release`; the slot is cleared and its staging returned if the machine resets. -/
def release (slot : Slot) (staging : HeapStaging) : Slot × HeapStaging × Bool :=
  let (slot, duties) := slot.drive .slotRelease
  if .resets ∈ duties then
    ({ slot with key := none, lastSn := 0, deadlineMs := 0, chain := none },
      if slot.chain.isSome then staging.release else staging, true)
  else (slot, staging, false)

end Slot

/-- Between calls a slot is empty, or holds a chain that is being received. -/
inductive Settled : Slot → Prop
  | free {lastSn deadlineMs} : Settled ⟨.empty, none, lastSn, deadlineMs, none⟩
  | busy {key lastSn deadlineMs chain} :
      Settled ⟨.receiving, some key, lastSn, deadlineMs, some chain⟩

theorem settled_new : Settled Slot.new := .free

theorem settled_cases {slot : Slot} (h : Settled slot) :
    (slot.engine = .empty ∧ slot.key = none ∧ slot.chain = none) ∨
      ∃ key chain, slot.engine = .receiving ∧ slot.key = some key ∧ slot.chain = some chain := by
  cases h with
  | free => exact .inl ⟨rfl, rfl, rfl⟩
  | busy => exact .inr ⟨_, _, rfl, rfl, rfl⟩

def SlotEvent.isAbort : SlotEvent → Bool
  | .fragmentOoo | .fragmentDrop | .slotEvict | .codecError => true
  | _ => false

section Receiving

variable {slot : Slot}

theorem drive_abort (hslot : slot.engine = .receiving) {event : SlotEvent}
    (h : event.isAbort = true) : slot.drive event = ({ slot with engine := .aborted }, [.aborts]) := by
  rw [Slot.drive, hslot]
  cases event with
  | fragmentOoo | fragmentDrop | slotEvict | codecError => rfl
  | fragmentChunk more => simp [SlotEvent.isAbort] at h
  | reassemblyTimeout | slotRelease => simp [SlotEvent.isAbort] at h

theorem drive_chunk_receiving (hslot : slot.engine = .receiving) (more : UInt8) :
    slot.drive (.fragmentChunk more) =
      if more ≠ 0 then ({ slot with engine := .receiving }, [.appends])
      else ({ slot with engine := .complete }, [.finalizes]) := by
  have hstep : transition .receiving (.fragmentChunk more) =
      if more ≠ 0 then some (.receiving, [.appendFragmentPayload])
      else some (.complete, [.finalizeMessage]) := rfl
  rw [Slot.drive, hslot, hstep]
  split_ifs <;> rfl

theorem drive_timeout (hslot : slot.engine = .receiving) :
    slot.drive .reassemblyTimeout = ({ slot with engine := .timedOut }, []) := by
  rw [Slot.drive, hslot]
  rfl

theorem drive_chunk_empty (hslot : slot.engine = .empty) (more : UInt8) :
    slot.drive (.fragmentChunk more) =
      if more ≠ 0 then ({ slot with engine := .receiving }, [.begins])
      else ({ slot with engine := .complete }, [.begins, .finalizes]) := by
  have hstep : transition .empty (.fragmentChunk more) =
      if more ≠ 0 then some (.receiving, [.beginChain])
      else some (.complete, [.beginChain, .finalizeMessage]) := rfl
  rw [Slot.drive, hslot, hstep]
  split_ifs <;> rfl

theorem release_terminal
    (hslot : slot.engine = .aborted ∨ slot.engine = .complete ∨ slot.engine = .timedOut)
    (staging : HeapStaging) :
    slot.release staging =
      (Slot.new, if slot.chain.isSome then staging.release else staging, true) := by
  rcases hslot with h | h | h
  all_goals
    rw [Slot.release, Slot.drive, h]
    rfl

end Receiving

end WatchingZenoh.ReassemblySlot
