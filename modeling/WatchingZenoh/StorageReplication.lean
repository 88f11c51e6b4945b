import WatchingZenoh.Timestamp
import WatchingZenoh.Library.NestedMap

/-! The replication digest of a storage and the log that keeps it up to date. Events are cut into
intervals and sub-intervals by their time word, their fingerprints are combined by exclusive or, and
the digest rolls them up by era: one fingerprint for everything cold, one for each warm interval, one
for each sub-interval of a hot one. -/

namespace WatchingZenoh.StorageReplication

open Timestamp NestedMap
open Std (ExtTreeMap ExtTreeSet)

abbrev Fingerprint := UInt64
abbrev IntervalIdx := UInt64
abbrev SubIntervalIdx := UInt64

instance instLawfulBEqFingerprints : LawfulBEq (ExtTreeMap SubIntervalIdx Fingerprint) := inferInstance

instance instLawfulBEqSubIntervals : LawfulBEq (ExtTreeSet SubIntervalIdx) := inferInstance

def saturatingSub (a b : UInt64) : UInt64 := .ofNat (a.toNat - b.toNat)
def saturatingAdd (a b : UInt64) : UInt64 := .ofNat (min (a.toNat + b.toNat) (2 ^ 64 - 1))

/-- Fixed-point seconds: whole ones in the high half of the word, the fraction in the low half. -/
def ntp64ToMs (time : UInt64) : ℕ :=
  let secs := time.toNat / 2 ^ 32
  let frac := time.toNat % 2 ^ 32
  let subsecNanos := (frac * 1000000000 + (2 ^ 32 - 1)) / 2 ^ 32
  secs * 1000 + subsecNanos / 1000000

/-- A constructed configuration: the two bounds are the ones its constructor asserts. -/
structure ReplicationConfig where
  storageKeyExpr : Bytes
  pathPrefix : Option Bytes
  intervalMs : UInt64
  subIntervals : UInt64
  hot : UInt64
  warm : UInt64
  propagationDelayMs : UInt64
  subIntervals_pos : 1 ≤ subIntervals.toNat
  subIntervals_le : subIntervals.toNat ≤ intervalMs.toNat
  deriving DecidableEq

/-- The digest of the streaming hash over a configuration's fields and over an event's key, time word
and padded id. The hash is a package of its own; nothing below depends on which function it is. -/
class FingerprintHash where
  configFingerprint : ReplicationConfig → Fingerprint
  eventFingerprint : Option Bytes → TimestampHint → Fingerprint

export FingerprintHash (eventFingerprint)

abbrev timeHash : FingerprintHash where
  configFingerprint config := config.hot
  eventFingerprint _ timestamp := timestamp.time

namespace ReplicationConfig

variable (config : ReplicationConfig)

def fingerprint [FingerprintHash] : Fingerprint := FingerprintHash.configFingerprint config

def classify (time : UInt64) : IntervalIdx × SubIntervalIdx :=
  let ms := ntp64ToMs time
  let interval := ms / config.intervalMs.toNat
  let subWidth := config.intervalMs.toNat / config.subIntervals.toNat
  let subInterval := (ms - config.intervalMs.toNat * interval) / subWidth
  (.ofNat interval, .ofNat subInterval)

def hotEraLowerBound (hotEraUpperBound : IntervalIdx) : IntervalIdx :=
  saturatingAdd (saturatingSub hotEraUpperBound config.hot) 1

def warmEraLowerBound (hotEraUpperBound : IntervalIdx) : IntervalIdx :=
  saturatingAdd (saturatingSub (saturatingSub hotEraUpperBound config.hot) config.warm) 1

end ReplicationConfig

structure Digest where
  configurationFingerprint : Fingerprint
  coldEraFingerprint : Fingerprint
  warmEraFingerprints : ExtTreeMap IntervalIdx Fingerprint
  hotEraFingerprints : ExtTreeMap IntervalIdx (ExtTreeMap SubIntervalIdx Fingerprint)
  deriving DecidableEq

structure DigestDiff where
  coldErasDiffer : Bool
  warmErasDifferences : ExtTreeSet IntervalIdx
  hotErasDifferences : ExtTreeMap IntervalIdx (ExtTreeSet SubIntervalIdx)
  deriving DecidableEq

section Differing

variable {κ : Type} [Ord κ] [Std.TransOrd κ]

/-- The entries of `other` that `mine` lacks or holds with another fingerprint. -/
def differing (mine other : ExtTreeMap κ Fingerprint) : ExtTreeMap κ Fingerprint :=
  other.filter fun idx fp =>
    match mine[idx]? with
    | some own => fp ≠ own
    | none => true

def keySet {α : Type} (m : ExtTreeMap κ α) : ExtTreeSet κ := .ofList m.keys

end Differing

/-- The differences of `other` seen from `self`. What only `self` holds is not one. -/
def Digest.diff (self other : Digest) : Option DigestDiff :=
  if self.configurationFingerprint ≠ other.configurationFingerprint then none
  else
    let hot := (other.hotEraFingerprints.map fun idx subs =>
      match self.hotEraFingerprints[idx]? with
      | some selfSubs => differing selfSubs subs
      | none => subs).filter fun _ subs => !subs.isEmpty
    let warm := differing self.warmEraFingerprints other.warmEraFingerprints
    let coldErasDiffer := decide (self.coldEraFingerprint ≠ other.coldEraFingerprint)
    if !hot.isEmpty || !warm.isEmpty then
      some ⟨coldErasDiffer, keySet warm, hot.map fun _ subs => keySet subs⟩
    else if coldErasDiffer then some ⟨true, ∅, ∅⟩
    else none

section Digests

variable [FingerprintHash]

/-- The era roll-up. An interval after the bound is skipped, a warm interval whose fingerprint cancels
is left out, and a hot interval is entered even when all its sub-intervals are. -/
def rollUp {α : Type} (fingerprint : α → Fingerprint) (config : ReplicationConfig)
    (intervals : ExtTreeMap IntervalIdx (ExtTreeMap SubIntervalIdx α))
    (hotEraUpperBound : IntervalIdx) : Digest :=
  let hotLower := config.hotEraLowerBound hotEraUpperBound
  let warmLower := config.warmEraLowerBound hotEraUpperBound
  intervals.foldl (fun digest idx subs =>
    if idx > hotEraUpperBound then digest
    else
      let intervalFp := subs.foldl (fun acc _ sub => acc ^^^ fingerprint sub) 0
      if idx < warmLower then
        { digest with coldEraFingerprint := digest.coldEraFingerprint ^^^ intervalFp }
      else if idx < hotLower then
        if intervalFp ≠ 0 then
          { digest with warmEraFingerprints := digest.warmEraFingerprints.insert idx intervalFp }
        else digest
      else
        let subs := (subs.filter fun _ sub => fingerprint sub ≠ 0).map fun _ => fingerprint
        { digest with hotEraFingerprints := digest.hotEraFingerprints.insert idx subs })
    ⟨config.fingerprint, 0, ∅, ∅⟩

/-- The digest of a list of events, from nothing. -/
def buildDigest (config : ReplicationConfig) (events : List (Option Bytes × TimestampHint))
    (hotEraUpperBound : IntervalIdx) : Digest :=
  let buckets := gather (fun event => config.classify event.2.time) 0
    (fun event fp => fp ^^^ eventFingerprint event.1 event.2) events
  rollUp id config buckets hotEraUpperBound

end Digests

structure SubIntervalBucket where
  fingerprint : Fingerprint
  events : ℕ
  deriving DecidableEq, Repr

/-- One event fewer; the last one takes the bucket with it. -/
def SubIntervalBucket.without (fingerprint : Fingerprint) (bucket : SubIntervalBucket) :
    Option SubIntervalBucket :=
  if bucket.events - 1 = 0 then none
  else some ⟨bucket.fingerprint ^^^ fingerprint, bucket.events - 1⟩

/-- The log is cut under the configuration it is bound to; unbound, it holds nothing. -/
structure ReplicationLog where
  binding : Option ReplicationConfig
  intervals : ExtTreeMap IntervalIdx (ExtTreeMap SubIntervalIdx SubIntervalBucket)
  seeds : ℕ
  deriving DecidableEq

namespace ReplicationLog

variable [FingerprintHash] (log : ReplicationLog)

def new : ReplicationLog := ⟨none, ∅, 0⟩

def isBoundTo (config : ReplicationConfig) : Bool := log.binding == some config

def insertEvent (key : Option Bytes) (timestamp : TimestampHint) : ReplicationLog :=
  match log.binding with
  | none => log
  | some config =>
    let (idx, sub) := config.classify timestamp.time
    { log with
      intervals := upsert log.intervals idx sub ⟨0, 0⟩ fun bucket =>
        ⟨bucket.fingerprint ^^^ eventFingerprint key timestamp, bucket.events + 1⟩ }

/-- An interval goes with its last sub-interval. -/
def removeEvent (key : Option Bytes) (timestamp : TimestampHint) : ReplicationLog :=
  match log.binding with
  | none => log
  | some config =>
    let (idx, sub) := config.classify timestamp.time
    match log.intervals[idx]? with
    | none => log
    | some subs =>
      let subs := subs.alter sub fun bucket =>
        bucket.bind (SubIntervalBucket.without (eventFingerprint key timestamp))
      { log with
        intervals := if subs.isEmpty then log.intervals.erase idx
          else log.intervals.insert idx subs }

def apply (key : Option Bytes) (previous current : Option TimestampHint) : ReplicationLog :=
  if log.binding.isNone then log
  else
    let log := match previous with
      | some previous => log.removeEvent key previous
      | none => log
    match current with
    | some current => log.insertEvent key current
    | none => log

/-- Bind the log to a configuration and cut it anew. -/
def seed (config : ReplicationConfig) (events : List (Option Bytes × TimestampHint)) :
    ReplicationLog :=
  events.foldl (fun log event => log.insertEvent event.1 event.2) ⟨some config, ∅, log.seeds + 1⟩

def digestFrom (config : ReplicationConfig) (hotEraUpperBound : IntervalIdx) : Digest :=
  rollUp SubIntervalBucket.fingerprint config log.intervals hotEraUpperBound

end ReplicationLog

end WatchingZenoh.StorageReplication
