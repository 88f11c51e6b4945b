import Mathlib
import WatchingZenoh.Timestamp

/-! The ordering machine of an advanced subscriber, as it is built with recovery and history. A sample
or an event goes in; samples are delivered and holes reported, and what has to be asked for comes
back. Samples of a source wait in its buffer while a query that may bring older ones is open. -/

namespace WatchingZenoh.Subscriber

open Timestamp (TimestampHint timestampStrictlyNewer)
open Std (ExtTreeMap)

/-- The order in which the keys of a hash map come. -/
class IterOrder where
  order : {κ : Type} → List κ → List κ
  perm : ∀ {κ : Type} (keys : List κ), (order keys).Perm keys

/-- The identity of an entity: its session's id, of one to sixteen bytes, and its number there. -/
structure EntityGlobalId where
  zid : Bytes
  eid : UInt32
  valid : 1 ≤ zid.length ∧ zid.length ≤ 16

abbrev Key := Bytes × UInt32

instance instOrdKey : Ord Key := lexOrd

namespace EntityGlobalId

def new (zid : Bytes) (eid : UInt32) : Option EntityGlobalId :=
  if valid : 1 ≤ zid.length ∧ zid.length ≤ 16 then some { zid, eid, valid } else none

def key (source : EntityGlobalId) : Key := (source.zid, source.eid)

end EntityGlobalId

/-- The id stands in a buffer of sixteen bytes, of which the first so many count. -/
structure SourceInfo where
  zid : Bytes
  zidLen : UInt8
  eid : UInt32
  sn : UInt32

namespace SourceInfo

def zidPrefix (info : SourceInfo) : Bytes :=
  if 1 ≤ info.zidLen.toNat ∧ info.zidLen.toNat ≤ 16 then info.zid.take info.zidLen.toNat else []

def sourceId (info : SourceInfo) : Option EntityGlobalId :=
  EntityGlobalId.new info.zidPrefix info.eid

end SourceInfo

/-- What a sample says of its origin, and the rest of it. -/
structure Sample (α : Type) where
  sourceInfo : Option SourceInfo
  timestamp : Option TimestampHint
  content : α

structure Miss where
  source : EntityGlobalId
  nb : UInt32

/-- What the machine calls: the sample callback, or the listeners for misses. -/
inductive Event (α : Type)
  | sample (sample : Sample α)
  | miss (miss : Miss)

structure RecoveryRequest where
  zid : Bytes
  eid : UInt32
  fromSn : UInt32
  toSn : Option UInt32

structure SourceState (α : Type) where
  lastDelivered : Option UInt32 := none
  pendingSamples : ExtTreeMap UInt32 (Sample α) := ∅
  pendingQueries : ℕ := 0

structure TimestampedState (α : Type) where
  lastDelivered : Option TimestampHint := none
  pendingQueries : ℕ := 0
  pendingSamples : ExtTreeMap UInt64 (Sample α) := ∅

structure State (α : Type) where
  sequenced : ExtTreeMap Key (SourceState α) := ∅
  timestamped : ExtTreeMap Bytes (TimestampedState α) := ∅
  retransmission : Bool := false
  globalPendingQueries : ℕ := 0
  maxHistoryDepth : ℕ

variable {α : Type}

/-- The identity and the number that a sample is ordered by. -/
def Sample.sequenced (sample : Sample α) : Option (EntityGlobalId × UInt32) :=
  sample.sourceInfo.bind fun info => info.sourceId.map fun id => (id, info.sn)

/-- The samples that follow a number without a hole, out of the buffer, with fuel for all of it. -/
def drain : ℕ → UInt32 → ExtTreeMap UInt32 (Sample α) →
    UInt32 × ExtTreeMap UInt32 (Sample α) × List (Event α)
  | 0, delivered, pending => (delivered, pending, [])
  | fuel + 1, delivered, pending =>
    match pending[delivered + 1]? with
    | none => (delivered, pending, [])
    | some next =>
      let (last, pending, events) := drain fuel (delivered + 1) (pending.erase (delivered + 1))
      (last, pending, .sample next :: events)

def deliverAndFlush (state : SourceState α) (sn : UInt32) (sample : Sample α) :
    SourceState α × List (Event α) :=
  let (last, pendingSamples, events) := drain state.pendingSamples.size sn state.pendingSamples
  ({ state with lastDelivered := some last, pendingSamples }, .sample sample :: events)

def flushOne (source : EntityGlobalId) :
    Option UInt32 × List (Event α) → UInt32 × Sample α → Option UInt32 × List (Event α)
  | (none, events), (sn, sample) => (some sn, events ++ [.sample sample])
  | (some last, events), (sn, sample) =>
    if sn = last + 1 then (some sn, events ++ [.sample sample])
    else if last < sn then
      (some sn, events ++ [.miss { source, nb := sn - last - 1 }, .sample sample])
    else (some last, events)

/-- A key that is no identity stops the machine. -/
def flushSequenced (key : Key) (state : SourceState α) : Option (SourceState α × List (Event α)) :=
  if state.pendingSamples.isEmpty then some (state, [])
  else do
    let source ← EntityGlobalId.new key.1 key.2
    let (lastDelivered, events) :=
      state.pendingSamples.toList.foldl (flushOne source) (state.lastDelivered, [])
    some ({ state with lastDelivered, pendingSamples := ∅ }, events)

def flushTimestamped (zid : Bytes) (state : TimestampedState α) :
    TimestampedState α × List (Event α) :=
  if state.pendingQueries ≠ 0 || state.pendingSamples.isEmpty then (state, [])
  else
    let (lastDelivered, events) := state.pendingSamples.toList.foldl
      (fun (last, events) (time, sample) =>
        let ts : TimestampHint := { time, zid }
        if last.all fun last => timestampStrictlyNewer ts last then
          (some ts, events ++ [.sample sample])
        else (last, events)) (state.lastDelivered, [])
    ({ state with lastDelivered, pendingSamples := ∅ }, events)

/-- A buffer that has come to its depth gives up its oldest sample. -/
def spill (maxHistoryDepth : ℕ) (state : SourceState α) : SourceState α × List (Event α) :=
  if maxHistoryDepth ≤ state.pendingSamples.size then
    match state.pendingSamples.toList with
    | [] => (state, [])
    | (oldSn, old) :: _ =>
      deliverAndFlush { state with pendingSamples := state.pendingSamples.erase oldSn } oldSn old
  else (state, [])

def buffer (state : SourceState α) (sn : UInt32) (sample : Sample α) : SourceState α :=
  { state with pendingSamples := state.pendingSamples.insert sn sample }

def nextSn (state : SourceState α) : UInt32 := (state.lastDelivered.map (· + 1)).getD 0

def ingestAtSource (retransmission historyPending : Bool) (maxHistoryDepth : ℕ)
    (source : EntityGlobalId) (sn : UInt32) (sample : Sample α) (state : SourceState α) :
    SourceState α × List (Event α) :=
  match state.lastDelivered with
  | none =>
    if historyPending then spill maxHistoryDepth (buffer state sn sample)
    else deliverAndFlush state sn sample
  | some last =>
    if sn = last + 1 then deliverAndFlush state sn sample
    else if last < sn then
      if retransmission then spill maxHistoryDepth (buffer state sn sample)
      else
        ({ state with lastDelivered := some sn },
          [.miss { source, nb := sn - last - 1 }, .sample sample])
    else (state, [])

/-- What comes back from a call: what it called, what is to be asked for, and whether a history query
is to be issued. -/
structure Output (α : Type) where
  events : List (Event α) := []
  requests : List RecoveryRequest := []
  issue : Bool := false

namespace State

def new : State α := { maxHistoryDepth := 2 ^ 64 - 1 }

variable (s : State α)

def withRetransmission (retransmission : Bool) : State α := { s with retransmission }

def withHistory (globalPendingQueries maxHistoryDepth : ℕ) : State α :=
  { s with globalPendingQueries, maxHistoryDepth }

def source (key : Key) : SourceState α := s.sequenced[key]?.getD {}

def setSource (key : Key) (state : SourceState α) : State α :=
  { s with sequenced := s.sequenced.insert key state }

def request (key : Key) (state : SourceState α) (toSn : Option UInt32) : RecoveryRequest :=
  { zid := key.1, eid := key.2, fromSn := nextSn state, toSn }

def openQuery (state : SourceState α) : SourceState α :=
  { state with pendingQueries := state.pendingQueries + 1 }

def closeQuery (state : SourceState α) : SourceState α :=
  { state with pendingQueries := state.pendingQueries - 1 }

def ingestSequenced (source : EntityGlobalId) (sn : UInt32) (sample : Sample α) (live : Bool) :
    State α × Output α :=
  let historyPending : Bool := s.globalPendingQueries ≠ 0
  let before := s.source source.key
  let (state, events) := ingestAtSource s.retransmission historyPending s.maxHistoryDepth source sn
    sample before
  if before.lastDelivered.isNone && historyPending then (s.setSource source.key state, { events })
  else if live && s.retransmission && state.pendingQueries = 0 && !state.pendingSamples.isEmpty then
    (s.setSource source.key (openQuery state),
      { events, requests := [request source.key state none] })
  else (s.setSource source.key state, { events })

def deliverUnsequenced (sample : Sample α) : State α × Output α :=
  match sample.timestamp with
  | none => (s, { events := [.sample sample] })
  | some ts =>
    let historyPending : Bool := s.globalPendingQueries ≠ 0
    let state := s.timestamped[ts.zid]?.getD {}
    let set (state : TimestampedState α) : State α :=
      { s with timestamped := s.timestamped.insert ts.zid state }
    if state.lastDelivered.any fun last => !timestampStrictlyNewer ts last then (set state, {})
    else if (historyPending || state.pendingQueries ≠ 0) && s.maxHistoryDepth ≠ 1 then
      let state :=
        { state with pendingSamples := state.pendingSamples.insertIfNew ts.time sample }
      if s.maxHistoryDepth ≤ state.pendingSamples.size then
        let (state, events) := flushTimestamped ts.zid state
        (set state, { events })
      else (set state, {})
    else (set { state with lastDelivered := some ts }, { events := [.sample sample] })

def ingest (sample : Sample α) (live : Bool) : State α × Output α :=
  match sample.sequenced with
  | some (source, sn) => s.ingestSequenced source sn sample live
  | none => s.deliverUnsequenced sample

def finishRecovery (key : Key) : Option (State α × Output α) :=
  match s.sequenced[key]? with
  | none => some (s, {})
  | some state => do
    let state := closeQuery state
    if state.pendingQueries = 0 && s.globalPendingQueries = 0 then
      let (state, events) ← flushSequenced key state
      some (s.setSource key state, { events })
    else some (s.setSource key state, {})

/-- A source whose own query is not open, at the end of the last global one. -/
def flushSource : State α × List (Event α) → Key → Option (State α × List (Event α))
  | (s, events), key =>
    match s.sequenced[key]? with
    | none => some (s, events)
    | some state =>
      if state.pendingQueries = 0 then do
        let (state, more) ← flushSequenced key state
        some (s.setSource key state, events ++ more)
      else some (s, events)

def flushTimestampedSource : State α × List (Event α) → Bytes → State α × List (Event α)
  | (s, events), zid =>
    match s.timestamped[zid]? with
    | none => (s, events)
    | some state =>
      let (state, more) := flushTimestamped zid state
      ({ s with timestamped := s.timestamped.insert zid state }, events ++ more)

def finishHistory [IterOrder] : Option (State α × Output α) :=
  let s := { s with globalPendingQueries := s.globalPendingQueries - 1 }
  if s.globalPendingQueries ≠ 0 then some (s, {})
  else do
    let (s, events) ← (IterOrder.order s.sequenced.keys).foldlM flushSource (s, [])
    let (s, events) := (IterOrder.order s.timestamped.keys).foldl flushTimestampedSource (s, events)
    some (s, { events })

/-- A source without an open query is asked for what comes next. -/
def askSource : State α × List RecoveryRequest → Key → State α × List RecoveryRequest
  | (s, requests), key =>
    match s.sequenced[key]? with
    | none => (s, requests)
    | some state =>
      if state.pendingQueries = 0 then
        (s.setSource key (openQuery state), requests ++ [request key state none])
      else (s, requests)

def periodicRequests [IterOrder] : State α × Output α :=
  if !s.retransmission then (s, {})
  else
    let (s, requests) := (IterOrder.order s.sequenced.keys).foldl askSource (s, [])
    (s, { requests })

def handleHeartbeat (zid : Bytes) (eid hbSn : UInt32) : State α × Output α :=
  if !s.retransmission then (s, {})
  else
    let key : Key := (zid, eid)
    let newlySeen := key ∉ s.sequenced
    let state := s.source key
    if newlySeen && s.globalPendingQueries ≠ 0 then (s.setSource key state, {})
    else
      let caughtUp := state.lastDelivered.any fun last => hbSn ≤ last
      if !caughtUp && state.pendingQueries = 0 then
        (s.setSource key (openQuery state), { requests := [request key state (some hbSn)] })
      else (s.setSource key state, {})

def handleLatePublisher (zid : Bytes) (eid : UInt32) : State α × Output α :=
  let key : Key := (zid, eid)
  let state := s.source key
  if state.pendingQueries = 0 then (s.setSource key (openQuery state), { issue := true })
  else (s.setSource key state, {})

def handleLateTimestampedPublisher (zid : Bytes) : State α × Output α :=
  let state := s.timestamped[zid]?.getD {}
  if state.pendingQueries = 0 then
    ({ s with timestamped :=
        s.timestamped.insert zid { state with pendingQueries := state.pendingQueries + 1 } },
      { issue := true })
  else ({ s with timestamped := s.timestamped.insert zid state }, {})

def finishTimestampedRecovery (zid : Bytes) : State α × Output α :=
  match s.timestamped[zid]? with
  | none => (s, {})
  | some state =>
    let state := { state with pendingQueries := state.pendingQueries - 1 }
    if s.globalPendingQueries = 0 then
      let (state, events) := flushTimestamped zid state
      ({ s with timestamped := s.timestamped.insert zid state }, { events })
    else ({ s with timestamped := s.timestamped.insert zid state }, {})

def openGlobalHistorySlot : State α :=
  { s with globalPendingQueries := s.globalPendingQueries + 1 }

end State

inductive Call (α : Type)
  | ingest (sample : Sample α) (live : Bool)
  | handleHeartbeat (zid : Bytes) (eid hbSn : UInt32)
  | periodicRequests
  | handleLatePublisher (zid : Bytes) (eid : UInt32)
  | handleLateTimestampedPublisher (zid : Bytes)
  | openGlobalHistorySlot
  | finishRecovery (key : Key)
  | finishTimestampedRecovery (zid : Bytes)
  | finishHistory

/-- One call; nothing comes of one that stops the machine. -/
def step [IterOrder] (s : State α) : Call α → Option (State α × Output α)
  | .ingest sample live => some (s.ingest sample live)
  | .handleHeartbeat zid eid hbSn => some (s.handleHeartbeat zid eid hbSn)
  | .periodicRequests => some s.periodicRequests
  | .handleLatePublisher zid eid => some (s.handleLatePublisher zid eid)
  | .handleLateTimestampedPublisher zid => some (s.handleLateTimestampedPublisher zid)
  | .openGlobalHistorySlot => some (s.openGlobalHistorySlot, {})
  | .finishRecovery key => s.finishRecovery key
  | .finishTimestampedRecovery zid => some (s.finishTimestampedRecovery zid)
  | .finishHistory => s.finishHistory

end WatchingZenoh.Subscriber
