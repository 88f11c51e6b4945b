import WatchingZenoh.DeliveryLaneSamples
import WatchingZenoh.Library.Slices
import WatchingZenoh.StorageBackend

/-! A subscription whose callback runs on a task of its own, over a delivery lane. A sample is copied
into the byte area with a record beside it that cuts the bytes back into their parts; a sample the lane
has no room for is refused, waits outside the lane, or takes the place of the newest ones, by the
subscription's policy. An index or a slice out of range is a panic. -/

namespace WatchingZenoh

inductive Reliability
  | bestEffort
  | reliable
deriving DecidableEq, Repr

inductive SubscriberOverload
  | block
  | reject
  | keepLatest
deriving DecidableEq, Repr

namespace Offload

open Backend DeliveryLane Slices

variable {ι : Type} {n : ℕ}

/-- A sample as a callback reads it. What is carried beside its bytes and not looked at (its kind, its
quality of service, its timestamp, its source) is `carried`. -/
structure SampleView (ι : Type) where
  keyexpr : Bytes
  payload : Bytes
  attachment : Option Bytes
  encoding : Option EncodingHint
  reliability : Reliability
  carried : ι

/-- What a lane keeps of a sample besides its bytes. -/
structure Meta (ι : Type) where
  key : ℕ
  payload : ℕ
  attachment : Option ℕ
  schema : Option ℕ
  reliability : Reliability
  encodingId : Option UInt32
  carried : ι

structure Held (ι : Type) where
  bytes : Bytes
  record : Meta ι

structure State (ι : Type) (n : ℕ) where
  lane : DeliveryLane n
  area : Bytes
  records : Vector (Option (Meta ι)) n
  held : List (Held ι)
  droppedBestEffort : ℕ
  droppedReliable : ℕ

namespace SampleView

def schema (v : SampleView ι) : Option Bytes := v.encoding.bind EncodingHint.schema

/-- `Captured::slices` of a view, those that are there. -/
def slices (v : SampleView ι) : List Bytes :=
  [some v.keyexpr, some v.payload, v.attachment, v.schema].filterMap id

def total (v : SampleView ι) : ℕ := (v.slices.map List.length).sum

def record (v : SampleView ι) : Meta ι :=
  ⟨v.keyexpr.length, v.payload.length, v.attachment.map List.length, v.schema.map List.length,
    v.reliability, v.encoding.map EncodingHint.packedId, v.carried⟩

/-- `Captured::held`. -/
def held (v : SampleView ι) : Held ι := ⟨v.slices.flatten, v.record⟩

end SampleView

/-- `split_at`, which panics past the end. -/
def splitAt? (bytes : Bytes) (mid : ℕ) : Option (Bytes × Bytes) :=
  if mid ≤ bytes.length then some (bytes.take mid, bytes.drop mid) else none

def splitPart? (bytes : Bytes) : Option ℕ → Option (Option Bytes × Bytes)
  | none => some (none, bytes)
  | some len => (splitAt? bytes len).map fun p => (some p.1, p.2)

/-- The bytes of a sample cut back into its parts. -/
structure Parts where
  key : Bytes
  payload : Bytes
  attachment : Option Bytes
  schema : Option Bytes

def cut (bytes : Bytes) (record : Meta ι) : Option Parts := do
  let (key, rest) ← splitAt? bytes record.key
  let (payload, rest) ← splitAt? rest record.payload
  let (attachment, rest) ← splitPart? rest record.attachment
  let (schema, _) ← splitPart? rest record.schema
  some ⟨key, payload, attachment, schema⟩

/-- `LaneSample::of`: the view a callback is handed. -/
def laneSample (bytes : Bytes) (record : Meta ι) : Option (SampleView ι) := do
  let parts ← cut bytes record
  some ⟨parts.key, parts.payload, parts.attachment,
    record.encodingId.map fun packedId => ⟨packedId, parts.schema⟩, record.reliability, record.carried⟩

namespace State

def write (s : State ι n) (parts : List Bytes) (total : ℕ) (record : Meta ι) :
    Option (State ι n × Except Refusal Unit) := do
  match ← s.lane.reserve total with
  | (lane, .error why) => some ({ s with lane := lane }, .error why)
  | (lane, .ok reservation) =>
    let area ← copyParts s.area reservation.offset parts
    let _ ← s.records[reservation.index]?
    match ← lane.publish reservation 1 with
    | (lane, .error why) =>
      some ({ s with
        lane := lane
        area := area
        records := s.records.setIfInBounds reservation.index none }, .error why)
    | (lane, .ok ()) =>
      some ({ s with
        lane := lane
        area := area
        records := s.records.setIfInBounds reservation.index (some record) }, .ok ())

def writeHeld (s : State ι n) (held : Held ι) : Option (State ι n × Except Refusal Unit) := do
  let parts ← cut held.bytes held.record
  s.write ([some parts.key, some parts.payload, parts.attachment, parts.schema].filterMap id)
    held.bytes.length held.record

/-- A sample lost to the lane, counted by how it was sent. -/
def lose (s : State ι n) : Reliability → State ι n
  | .bestEffort => { s with droppedBestEffort := s.droppedBestEffort + 1 }
  | .reliable => { s with droppedReliable := s.droppedReliable + 1 }

def noRoom : Except Refusal Unit → Bool
  | .error .eventsFull => true
  | .error .bytesFull => true
  | _ => false

/-- The loop of `make_room`: at each turn the newest sample is taken out. -/
def makeRoomLoop (bytes : ℕ) : ℕ → State ι n → Option (State ι n)
  | 0, _ => none
  | turns + 1, s => do
    let answer ← s.lane.fits bytes
    if noRoom answer then
      match ← s.lane.evictLatest with
      | (lane, none) => some { s with lane := lane }
      | (lane, some index) =>
        let taken ← s.records[index]?
        let s := { s with lane := lane, records := s.records.setIfInBounds index none }
        makeRoomLoop bytes turns (match taken with
          | some taken => s.lose taken.reliability
          | none => s)
    else some s

def makeRoom (s : State ι n) (bytes : ℕ) : Option (State ι n) :=
  if ¬ s.lane.canEverFit bytes then some s else s.makeRoomLoop bytes (s.lane.len + 1)

def admitNow (s : State ι n) (v : SampleView ι) : Option (State ι n) := do
  match ← s.write v.slices v.total v.record with
  | (s, .ok ()) => some s
  | (s, .error _) => some (s.lose v.reliability)

/-- Under `block` a sample waits outside the lane when there is no room, or when others wait. -/
def waits (s : State ι n) (bytes : ℕ) (overload : SubscriberOverload) : Option Bool :=
  if overload = .block ∧ s.lane.canEverFit bytes = true then
    (s.lane.fits bytes).map fun answer => noRoom answer || !s.held.isEmpty
  else some false

def admitSample (s : State ι n) (v : SampleView ι) (overload : SubscriberOverload) :
    Option (State ι n) := do
  if ← s.waits v.total overload then some { s with held := s.held ++ [v.held] }
  else if overload = .keepLatest then (s.makeRoom v.total).bind (admitNow · v)
  else s.admitNow v

/-- The held samples that now fit, in order. -/
def drainLoop (s : State ι n) : List (Held ι) → Option (State ι n)
  | [] => some { s with held := [] }
  | front :: rest => do
    match ← s.lane.fits front.bytes.length with
    | .error _ => some { s with held := front :: rest }
    | .ok () =>
      match ← s.writeHeld front with
      | (s, .ok ()) => drainLoop s rest
      | (s, .error _) => drainLoop (s.lose front.record.reliability) rest

end State

/-- The lane, the tasks around it and what they saw: whether the consumer runs the callback of the head
sample, whether the drain found the lane stopping, and the samples handed over and offered. -/
structure System (ι : Type) (n : ℕ) where
  state : State ι n
  running : Bool
  flushing : Bool
  handed : List (SampleView ι)
  offered : List (SampleView ι)

inductive Op (ι : Type)
  | admitSample (v : SampleView ι)
  | drainHeld
  | flushHeld
  | takeHead
  | complete
  | stop

namespace System

/-- One step under the lane's lock. The consumer is one task: it takes the head when it runs no
callback, and completes the sample it runs. -/
def step (overload : SubscriberOverload) (s : System ι n) : Op ι → Option (System ι n)
  | .admitSample v => do
    let state ← s.state.admitSample v overload
    some { s with state := state, offered := s.offered ++ [v] }
  | .drainHeld => do
    let state ← s.state.drainLoop s.state.held
    some { s with state := state, flushing := !state.held.isEmpty && state.lane.stopping }
  | .flushHeld =>
    if s.flushing then
      some { s with
        state := { s.state.held.foldl (fun state held => state.lose held.record.reliability) s.state
          with held := [] }
        flushing := false }
    else some s
  | .takeHead =>
    if s.running then some s
    else do
      match ← s.state.lane.front with
      | (lane, .ready head) =>
        let scratch ← slice? s.state.area head.offset head.bytes
        match ← s.state.records[head.index]? with
        | none => some { s with state := { s.state with lane := lane } }
        | some record =>
          let sample ← laneSample scratch record
          some { s with
            state := { s.state with
              lane := lane
              records := s.state.records.setIfInBounds head.index none }
            running := true
            handed := s.handed ++ [sample] }
      | (lane, _) => some { s with state := { s.state with lane := lane } }
  | .complete =>
    if s.running then do
      let (lane, _) ← s.state.lane.complete
      some { s with state := { s.state with lane := lane }, running := false }
    else some s
  | .stop => some { s with state := { s.state with lane := s.state.lane.stop } }

def new (ι : Type) (n bytes callbacks : ℕ) : System ι n :=
  ⟨⟨DeliveryLane.new n bytes callbacks, List.replicate bytes 0, Vector.replicate n none, [], 0, 0⟩,
    false, false, [], []⟩

def run (n bytes callbacks : ℕ) (overload : SubscriberOverload) (ops : List (Op ι)) :
    Option (System ι n) :=
  ops.foldlM (step overload) (new ι n bytes callbacks)

end System

end Offload

end WatchingZenoh
