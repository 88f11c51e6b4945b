import WatchingZenoh.KeyexprMatch
import WatchingZenoh.KeyexprPrefix
import WatchingZenoh.Ntp64
import WatchingZenoh.StorageAligner

/-! The storage state: the newer-wins gate over a backend, the wildcard updates that are registered
and laid over the keys, the maintained digest and both halves of the alignment exchange. -/

namespace WatchingZenoh.StorageReplica

open Timestamp Backend StorageReplication StorageAligner
open Std (ExtTreeMap ExtTreeSet)

structure LatestEvent where
  timestamp : TimestampHint
  kind : SampleKind
  deriving DecidableEq, Repr

structure WildcardUpdate where
  kind : SampleKind
  data : StoredData
  deriving DecidableEq, Repr

/-- A tombstone is a `latest` record without a value in the backend. -/
structure StorageState (β : Type) where
  backend : β
  latest : ExtTreeMap (Option Bytes) LatestEvent
  stripPrefix : Option Bytes
  wildcardPuts : ExtTreeMap Bytes WildcardUpdate
  wildcardDeletes : ExtTreeMap Bytes WildcardUpdate
  replicationLog : ReplicationLog
  deriving DecidableEq

/-- A captured sample, as the subscriber sees it. -/
structure Sample where
  keyexpr : Bytes
  kind : SampleKind
  timestamp : Option TimestampHint
  payload : Bytes
  encoding : Option EncodingHint
  deriving DecidableEq, Repr

abbrev ApplyResult := Except StorageWriteError Unit

namespace StorageState

variable {β : Type} [StorageBackend β] [FingerprintHash] (s : StorageState β)

omit [FingerprintHash] in
def latestMode : Bool := StorageBackend.history s.backend == .latest

omit [StorageBackend β] [FingerprintHash] in
/-- A key off the mount point is not stored. Only keys without wildcards are stripped, and on those
the strip does not panic. -/
def storedKeyFor (fullKey : Bytes) : Option (Option Bytes) :=
  match KeyexprPrefix.stripPrefix s.stripPrefix fullKey with
  | .ok (.ok key) => some key
  | _ => none

omit [StorageBackend β] [FingerprintHash] in
def fullKeyFor (stored : Option Bytes) : Option Bytes :=
  KeyexprPrefix.restorePrefix s.stripPrefix stored

omit [FingerprintHash] in
/-- The newer-wins gate. A read that the backend refuses lets the write through. -/
def accepts (key : Option Bytes) (incoming : TimestampHint) : Bool :=
  match s.latest[key]? with
  | some recorded => !timestampStrictlyNewer recorded.timestamp incoming
  | none =>
    match StorageBackend.get s.backend key with
    | .ok versions => !versions.any fun stored => timestampStrictlyNewer stored.timestamp incoming
    | .error _ => true

omit [StorageBackend β] in
def recordLatest (key : Option Bytes) (timestamp : TimestampHint) (kind : SampleKind) :
    StorageState β :=
  let previous := s.latest[key]?.map LatestEvent.timestamp
  { s with
    replicationLog := s.replicationLog.apply key previous (some timestamp)
    latest := s.latest.insert key ⟨timestamp, kind⟩ }

omit [FingerprintHash] [StorageBackend β] in
def empty (backend : β) (stripPrefix : Option Bytes) : StorageState β :=
  ⟨backend, ∅, stripPrefix, ∅, ∅, .new⟩

/-- What the backend already holds is recorded as puts. -/
def hydrated : Except StorageReadError (StorageState β) :=
  if s.latestMode then
    match StorageBackend.getAllEntries s.backend with
    | .error e => .error e
    | .ok entries => .ok (entries.foldl (fun s entry => s.recordLatest entry.1 entry.2 .put) s)
  else .ok s

def withStripPrefix (backend : β) (stripPrefix : Option Bytes) :
    Except StorageReadError (StorageState β) :=
  (empty backend stripPrefix).hydrated

/-- The gate, then the backend, then the record: a write that the backend refuses is not recorded. -/
def processWrite (key : Option Bytes) (timestamp : TimestampHint) (kind : SampleKind)
    (write : β → β × StorageWriteResult) : StorageState β × StorageWriteResult :=
  if s.latestMode && !s.accepts key timestamp then (s, .ok .outdated)
  else
    match write s.backend with
    | (backend, .error e) => ({ s with backend }, .error e)
    | (backend, .ok result) =>
      let s' := { s with backend }
      (if s.latestMode then s'.recordLatest key timestamp kind else s', .ok result)

def processPut (key : Option Bytes) (payload : Bytes) (encoding : Option EncodingHint)
    (timestamp : TimestampHint) : StorageState β × StorageWriteResult :=
  s.processWrite key timestamp .put fun backend =>
    StorageBackend.put backend key payload encoding timestamp

def processDelete (key : Option Bytes) (timestamp : TimestampHint) :
    StorageState β × StorageWriteResult :=
  s.processWrite key timestamp .del fun backend => StorageBackend.delete backend key timestamp

/-- `process_put` or `process_delete`, by the kind of the update. -/
def process (key : Option Bytes) (kind : SampleKind) (timestamp : TimestampHint) (payload : Bytes)
    (encoding : Option EncodingHint) : StorageState β × ApplyResult :=
  let (s, result) := match kind with
    | .put => s.processPut key payload encoding timestamp
    | .del => s.processDelete key timestamp
  (s, result.map fun _ => ())

section Wildcards

def overlays (wildcardKe fullKey : Bytes) : Bool :=
  KeyexprMatch.keyexprIntersectsTarget fullKey (Text.chunks wildcardKe)

omit [StorageBackend β] in
/-- The registry keeps one update for each key expression and kind: the last one registered. -/
def registerWildcardUpdate (wildcardKey : Bytes) (kind : SampleKind) (timestamp : TimestampHint)
    (payload : Bytes) (encoding : Option EncodingHint) : StorageState β :=
  let update : WildcardUpdate := ⟨kind, payload, encoding, timestamp⟩
  let registry := match kind with
    | .put => s.wildcardPuts
    | .del => s.wildcardDeletes
  let displaced := registry[wildcardKey]?.map fun wu => wu.data.timestamp
  let s := { s with
    replicationLog := s.replicationLog.apply (some wildcardKey) displaced (some timestamp) }
  match kind with
  | .put => { s with wildcardPuts := s.wildcardPuts.insert wildcardKey update }
  | .del => { s with wildcardDeletes := s.wildcardDeletes.insert wildcardKey update }

/-- The delete phase: the oldest covering wildcard delete that is not older than the update. -/
def lowestDelete (deletes : ExtTreeMap Bytes WildcardUpdate) (fullKey : Bytes)
    (incoming : TimestampHint) : Option WildcardUpdate :=
  deletes.foldl (fun lowest wildcardKe wu =>
    if overlays wildcardKe fullKey && !timestampStrictlyNewer incoming wu.data.timestamp then
      match lowest with
      | none => some wu
      | some cur =>
        if timestampStrictlyNewer cur.data.timestamp wu.data.timestamp then some wu else some cur
    else lowest) none

/-- The put phase: the newest covering wildcard put that is not older than the update. -/
def latestPut (puts : ExtTreeMap Bytes WildcardUpdate) (fullKey : Bytes)
    (incoming : TimestampHint) : Option WildcardUpdate :=
  (puts.foldl (fun (latestTs, latest) wildcardKe wu =>
    if overlays wildcardKe fullKey && !timestampStrictlyNewer latestTs wu.data.timestamp then
      (wu.data.timestamp, some wu)
    else (latestTs, latest)) (incoming, none)).2

omit [StorageBackend β] [FingerprintHash] in
def overridingWildUpdate (fullKey : Bytes) (incoming : TimestampHint)
    (runDeletePhase runPutPhase : Bool) : Option WildcardUpdate :=
  let lowest := if runDeletePhase then lowestDelete s.wildcardDeletes fullKey incoming else none
  match lowest with
  | some wu => some wu
  | none => if runPutPhase then latestPut s.wildcardPuts fullKey incoming else none

/-- The overriding wildcard gives the value and the timestamp, the update itself the operation: a
wildcard delete over a put stores an empty value. -/
def applyOneWithOverride (storedKey : Option Bytes) (fullKey : Bytes) (kind : SampleKind)
    (timestamp : TimestampHint) (payload : Bytes) (encoding : Option EncodingHint) :
    StorageState β × ApplyResult :=
  let (runDeletePhase, runPutPhase) := match kind with
    | .put => (true, true)
    | .del => (true, false)
  match s.overridingWildUpdate fullKey timestamp runDeletePhase runPutPhase with
  | some update =>
    let (payload, encoding) := match update.kind with
      | .put => (update.data.payload, update.data.encoding)
      | .del => ([], none)
    s.process storedKey kind update.data.timestamp payload encoding
  | none => s.process storedKey kind timestamp payload encoding

/-- Each of the keys in turn; the first error is reported and the rest are still written. -/
def applyEach (kind : SampleKind) (timestamp : TimestampHint) (payload : Bytes)
    (encoding : Option EncodingHint) :
    StorageState β → List (Option Bytes × Bytes) → StorageState β × ApplyResult
  | s, [] => (s, .ok ())
  | s, (stored, full) :: rest =>
    let (s, outcome) := s.applyOneWithOverride stored full kind timestamp payload encoding
    let (s, outcomes) := applyEach kind timestamp payload encoding s rest
    (s, match outcome with
      | .error e => .error e
      | .ok _ => outcomes)

omit [StorageBackend β] [FingerprintHash] in
/-- The listed keys that a wildcard covers, each with its full key. -/
def matching (wildcardKe : Bytes) (listed : List (Option Bytes × TimestampHint)) :
    List (Option Bytes × Bytes) :=
  listed.filterMap fun (stored, _) =>
    match s.fullKeyFor stored with
    | none => none
    | some full => if overlays wildcardKe full then some (stored, full) else none

/-- Register a wildcard update, then lay it over the keys the backend holds. -/
def materializeWildcard (wildcardKe : Bytes) (kind : SampleKind) (timestamp : TimestampHint)
    (payload : Bytes) (encoding : Option EncodingHint) : StorageState β × ApplyResult :=
  let s := s.registerWildcardUpdate wildcardKe kind timestamp payload encoding
  match StorageBackend.getAllEntries s.backend with
  | .error _ => (s, .error {})
  | .ok listed => applyEach kind timestamp payload encoding s (s.matching wildcardKe listed)

/-- `apply_sample_wildcard_aware`; a sample without a timestamp takes the fallback. -/
def applySampleInner (view : Sample) (fallback : TimestampHint) : StorageState β × ApplyResult :=
  let timestamp := view.timestamp.getD fallback
  if KeyexprMatch.isWild view.keyexpr then
    s.materializeWildcard view.keyexpr view.kind timestamp view.payload view.encoding
  else
    match s.storedKeyFor view.keyexpr with
    | none => (s, .ok ())
    | some storedKey =>
      s.applyOneWithOverride storedKey view.keyexpr view.kind timestamp view.payload view.encoding

def applySample (view : Sample) (fallback : TimestampHint) : StorageState β :=
  (s.applySampleInner view fallback).1

def applyAlignedConcrete (storedKey : Option Bytes) (kind : SampleKind) (timestamp : TimestampHint)
    (payload : Bytes) (encoding : Option EncodingHint) : StorageState β × ApplyResult :=
  match s.fullKeyFor storedKey with
  | some full => s.applyOneWithOverride storedKey full kind timestamp payload encoding
  | none => s.process storedKey kind timestamp payload encoding

omit [StorageBackend β] [FingerprintHash] in
def wildcardReplicationEntries : List (Bytes × WildcardUpdate) :=
  s.wildcardPuts.toList ++ s.wildcardDeletes.toList

omit [StorageBackend β] in
/-- Registered wildcards older than their lifespan are forgotten. -/
def collectGarbage (now : UInt64) (lifespan : TimeRange.Duration) : StorageState β :=
  let timeLimit := saturatingSub now (TimeRange.Ntp64.fromDuration lifespan).asWord
  let collected := (s.wildcardReplicationEntries.filter
    fun entry => entry.2.data.timestamp.time < timeLimit).map
    fun entry => (entry.1, entry.2.data.timestamp)
  { s with
    wildcardPuts := s.wildcardPuts.filter fun _ wu => wu.data.timestamp.time ≥ timeLimit
    wildcardDeletes := s.wildcardDeletes.filter fun _ wu => wu.data.timestamp.time ≥ timeLimit
    replicationLog := collected.foldl
      (fun log entry => log.apply (some entry.1) (some entry.2) none) s.replicationLog }

end Wildcards

section Replication

omit [StorageBackend β] [FingerprintHash] in
def replicationEventStream : List (Option Bytes × TimestampHint) :=
  s.latest.toList.map (fun entry => (entry.1, entry.2.timestamp)) ++
    s.wildcardReplicationEntries.map fun entry => (some entry.1, entry.2.data.timestamp)

omit [StorageBackend β] in
def recomputedReplicationDigest (config : ReplicationConfig) (hotEraUpperBound : IntervalIdx) :
    Digest :=
  buildDigest config s.replicationEventStream hotEraUpperBound

omit [StorageBackend β] in
/-- The digest of the log, cut anew first when it is bound to another configuration. -/
def replicationDigest (config : ReplicationConfig) (hotEraUpperBound : IntervalIdx) :
    StorageState β × Digest :=
  let s := if s.replicationLog.isBoundTo config then s
    else { s with replicationLog := s.replicationLog.seed config s.replicationEventStream }
  (s, s.replicationLog.digestFrom config hotEraUpperBound)

omit [StorageBackend β] [FingerprintHash] in
def replicationEvents : List EventMetadata :=
  (s.latest.toList.map fun entry => match entry.2.kind with
    | .put => EventMetadata.put entry.1 entry.2.timestamp
    | .del => EventMetadata.delete entry.1 entry.2.timestamp) ++
  s.wildcardReplicationEntries.map fun entry =>
    EventMetadata.wildcard (some entry.1) entry.2.data.timestamp (match entry.2.kind with
      | .put => .wildcardPut entry.1
      | .del => .wildcardDelete entry.1)

end Replication

section Serving

omit [FingerprintHash] in
/-- A put is answered with the stored version of exactly its timestamp, or not at all; a wildcard put
with whatever is registered. -/
def retrievalResponse (event : EventMetadata) : Option AlignmentResponse :=
  match event.action with
  | .delete => some ⟨.retrieval event, none⟩
  | .put =>
    match StorageBackend.get s.backend event.key with
    | .ok versions =>
      (versions.find? fun data => data.timestamp == event.timestamp).map fun data =>
        ⟨.retrieval event, some ⟨data.payload, data.encoding⟩⟩
    | .error _ => none
  | .wildcardPut wildcardKe =>
    s.wildcardPuts[wildcardKe]?.map fun wu =>
      ⟨.retrieval event, some ⟨wu.data.payload, wu.data.encoding⟩⟩
  | .wildcardDelete _ => some ⟨.retrieval event, none⟩

def answerAlignmentQuery (config : ReplicationConfig) (query : AlignmentQuery) (localZid : Bytes)
    (now : UInt64) : List AlignmentResponse :=
  let buckets := EventBuckets.fromEvents s.replicationEvents config
  match query with
  | .discovery => [⟨.discovery localZid, none⟩]
  | .all => s.replicationEvents.filterMap s.retrievalResponse
  | .diff diff =>
    let hotUpper := (config.classify now).1
    (if diff.coldErasDiffer then
      [⟨.intervals (buckets.coldEraFingerprints config hotUpper), none⟩] else []) ++
    (if !diff.warmErasDifferences.isEmpty then
      [⟨.subIntervals (buckets.subIntervalsFingerprints diff.warmErasDifferences), none⟩] else []) ++
    if !diff.hotErasDifferences.isEmpty then
      [⟨.eventsMetadata (buckets.eventsIn diff.hotErasDifferences), none⟩] else []
  | .intervals intervals =>
    if intervals.isEmpty then []
    else [⟨.subIntervals (buckets.subIntervalsFingerprints intervals), none⟩]
  | .subIntervals subIntervals =>
    if subIntervals.isEmpty then []
    else [⟨.eventsMetadata (buckets.eventsIn subIntervals), none⟩]
  | .events events => events.filterMap s.retrievalResponse

end Serving

section Asking

omit [StorageBackend β] [FingerprintHash] in
/-- Looked up in the record of the concrete keys, whatever the event's action. -/
def isMissing (event : EventMetadata) : Bool :=
  match s.latest[event.key]? with
  | some recorded => timestampStrictlyNewer event.timestamp recorded.timestamp
  | none => true

/-- The events of a reply in turn: a delete is applied at once, a put is asked for. -/
def processEventsMetadata :
    StorageState β → List EventMetadata → StorageState β × List EventMetadata
  | s, [] => (s, [])
  | s, event :: rest =>
    if !s.isMissing event then processEventsMetadata s rest
    else
      match event.action with
      | .put | .wildcardPut _ =>
        let (s, missingPuts) := processEventsMetadata s rest
        (s, event :: missingPuts)
      | .delete =>
        processEventsMetadata (s.applyAlignedConcrete event.key .del event.timestamp [] none).1 rest
      | .wildcardDelete keyexpr =>
        processEventsMetadata (s.materializeWildcard keyexpr .del event.timestamp [] none).1 rest

/-- A put whose value the peer left out is not applied. -/
def processRetrieval (event : EventMetadata) (value : Option RetrievedValue) : StorageState β :=
  if s.isMissing event then
    match event.action, value with
    | .put, some value =>
      (s.applyAlignedConcrete event.key .put event.timestamp value.payload value.encoding).1
    | .put, none => s
    | .delete, _ => (s.applyAlignedConcrete event.key .del event.timestamp [] none).1
    | .wildcardPut keyexpr, some value =>
      (s.materializeWildcard keyexpr .put event.timestamp value.payload value.encoding).1
    | .wildcardPut _, none => s
    | .wildcardDelete keyexpr, _ => (s.materializeWildcard keyexpr .del event.timestamp [] none).1
  else s

/-- What to ask for next of the peer's sub-interval fingerprints. An interval that both hold is asked
for even when none of its sub-intervals differs. -/
def differingSubIntervals (mine : ExtTreeMap IntervalIdx (ExtTreeMap SubIntervalIdx Fingerprint))
    (peer : ExtTreeMap IntervalIdx (ExtTreeMap SubIntervalIdx Fingerprint)) :
    ExtTreeMap IntervalIdx (ExtTreeSet SubIntervalIdx) :=
  peer.map fun idx peerSubs =>
    match mine[idx]? with
    | none => keySet peerSubs
    | some subs => keySet (differing subs peerSubs)

def processAlignmentReply (config : ReplicationConfig) (reply : AlignmentReply)
    (value : Option RetrievedValue) : StorageState β × AlignmentFollowup :=
  let buckets := EventBuckets.fromEvents s.replicationEvents config
  match reply with
  | .discovery zid => (s, .discoveredReplica zid)
  | .intervals peerFingerprints =>
    let differing := keySet (peerFingerprints.filter fun idx peerFp =>
      buckets.intervalFingerprintOf idx ≠ some peerFp)
    (s, if differing.isEmpty then .done else .query (.intervals differing))
  | .subIntervals peerSubFingerprints =>
    let mine := buckets.subIntervalsFingerprints (keySet peerSubFingerprints)
    let diff := differingSubIntervals mine peerSubFingerprints
    (s, if diff.isEmpty then .done else .query (.subIntervals diff))
  | .eventsMetadata events =>
    let (s, missingPuts) := processEventsMetadata s events
    (s, if missingPuts.isEmpty then .done else .query (.events missingPuts))
  | .retrieval event => (s.processRetrieval event value, .done)

end Asking

end StorageState

end WatchingZenoh.StorageReplica
