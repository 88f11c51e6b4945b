import Mathlib
import WatchingZenoh.StorageBackend
import WatchingZenoh.StorageReplication

/-! The vocabulary of the alignment exchange: the metadata of events, the queries and replies that
carry them, and the buckets a replica answers from. -/

namespace WatchingZenoh.StorageAligner

open Timestamp Backend StorageReplication NestedMap
open Std (ExtTreeMap ExtTreeSet)

inductive Action where
  | put
  | delete
  | wildcardPut (keyexpr : Bytes)
  | wildcardDelete (keyexpr : Bytes)
  deriving DecidableEq, Repr

structure EventMetadata where
  key : Option Bytes
  timestamp : TimestampHint
  timestampLastNonWildcardUpdate : Option TimestampHint
  action : Action
  deriving DecidableEq, Repr

namespace EventMetadata

def put (key : Option Bytes) (timestamp : TimestampHint) : EventMetadata :=
  ⟨key, timestamp, some timestamp, .put⟩

def delete (key : Option Bytes) (timestamp : TimestampHint) : EventMetadata :=
  ⟨key, timestamp, some timestamp, .delete⟩

def wildcard (key : Option Bytes) (timestamp : TimestampHint) (action : Action) : EventMetadata :=
  ⟨key, timestamp, none, action⟩

def fingerprint [FingerprintHash] (event : EventMetadata) : Fingerprint :=
  eventFingerprint event.key event.timestamp

end EventMetadata

structure EventBuckets where
  intervals : ExtTreeMap IntervalIdx (ExtTreeMap SubIntervalIdx (List EventMetadata))
  deriving DecidableEq

namespace EventBuckets

def fromEvents (events : List EventMetadata) (config : ReplicationConfig) : EventBuckets :=
  ⟨gather (fun event => config.classify event.timestamp.time) []
    (fun event bucket => bucket ++ [event]) events⟩

variable [FingerprintHash] (buckets : EventBuckets)

def subFingerprint (events : List EventMetadata) : Fingerprint :=
  events.foldl (fun acc event => acc ^^^ event.fingerprint) 0

def intervalFingerprint (subs : ExtTreeMap SubIntervalIdx (List EventMetadata)) : Fingerprint :=
  subs.foldl (fun acc _ events => acc ^^^ subFingerprint events) 0

def coldEraFingerprints (config : ReplicationConfig) (hotEraUpperBound : IntervalIdx) :
    ExtTreeMap IntervalIdx Fingerprint :=
  let warmLower := config.warmEraLowerBound hotEraUpperBound
  (buckets.intervals.filter fun idx _ => idx < warmLower).map fun _ subs => intervalFingerprint subs

def intervalFingerprintOf (idx : IntervalIdx) : Option Fingerprint :=
  buckets.intervals[idx]?.map intervalFingerprint

/-- The sub-intervals of the asked intervals that exist; one whose fingerprint cancels is left out. -/
def subIntervalsFingerprints (intervals : ExtTreeSet IntervalIdx) :
    ExtTreeMap IntervalIdx (ExtTreeMap SubIntervalIdx Fingerprint) :=
  intervals.foldl (fun out idx =>
    match buckets.intervals[idx]? with
    | none => out
    | some subs =>
      out.insert idx ((subs.map fun _ events => subFingerprint events).filter fun _ fp => fp ≠ 0)) ∅

omit [FingerprintHash] in
def eventsIn (subIntervals : ExtTreeMap IntervalIdx (ExtTreeSet SubIntervalIdx)) :
    List EventMetadata :=
  subIntervals.toList.flatMap fun entry =>
    match buckets.intervals[entry.1]? with
    | none => []
    | some interval => entry.2.toList.flatMap fun sub => (interval[sub]?).getD []

end EventBuckets

inductive AlignmentQuery where
  | discovery
  | all
  | diff (diff : DigestDiff)
  | intervals (intervals : ExtTreeSet IntervalIdx)
  | subIntervals (subIntervals : ExtTreeMap IntervalIdx (ExtTreeSet SubIntervalIdx))
  | events (events : List EventMetadata)
  deriving DecidableEq

inductive AlignmentReply where
  | discovery (zid : Bytes)
  | intervals (fingerprints : ExtTreeMap IntervalIdx Fingerprint)
  | subIntervals
      (fingerprints : ExtTreeMap IntervalIdx (ExtTreeMap SubIntervalIdx Fingerprint))
  | eventsMetadata (events : List EventMetadata)
  | retrieval (event : EventMetadata)
  deriving DecidableEq

structure RetrievedValue where
  payload : Bytes
  encoding : Option EncodingHint
  deriving DecidableEq, Repr

structure AlignmentResponse where
  reply : AlignmentReply
  value : Option RetrievedValue
  deriving DecidableEq

inductive AlignmentFollowup where
  | done
  | query (query : AlignmentQuery)
  | discoveredReplica (zid : Bytes)
  deriving DecidableEq

end WatchingZenoh.StorageAligner
