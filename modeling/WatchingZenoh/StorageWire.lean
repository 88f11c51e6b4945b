import WatchingZenoh.StorageAligner
import WatchingZenoh.WireBincode
import WatchingZenoh.ZidHex

/-! The wire form of digests, alignment queries and replies. Each value has a writer and a reader, and a
reader is a program of the readers' library, so that what it does to its buffer is known whether it
succeeds or not. -/

namespace WatchingZenoh.StorageWire

open Timestamp StorageReplication StorageAligner WireBincode ZidHex Readers Readers.Program
open Std (ExtTreeMap ExtTreeSet)

inductive DigestDecodeError where
  | unexpectedEof
  | lengthOverflow
  | trailingBytes
  deriving DecidableEq, Repr

instance : WireError DigestDecodeError := ⟨.unexpectedEof, .lengthOverflow⟩

inductive AlignmentDecodeError where
  | unexpectedEof
  | lengthOverflow
  | trailingBytes
  | badOptionTag (tag : UInt8)
  | unsupportedAction (tag : UInt32)
  | badUtf8
  | unknownVariant (tag : UInt32)
  | badZid
  deriving DecidableEq, Repr

instance : WireError AlignmentDecodeError := ⟨.unexpectedEof, .lengthOverflow⟩

section Write

def pushTimestamp (ts : TimestampHint) : Bytes := pushU64 ts.time ++ zidToLeArray ts.zid

def pushAction : Action → Bytes
  | .put => pushU32 0
  | .delete => pushU32 1
  | .wildcardPut keyexpr => pushU32 2 ++ pushString keyexpr
  | .wildcardDelete keyexpr => pushU32 3 ++ pushString keyexpr

def pushEventMetadata (e : EventMetadata) : Bytes :=
  pushOption pushString e.key ++ (pushTimestamp e.timestamp ++
    (pushOption pushTimestamp e.timestampLastNonWildcardUpdate ++ pushAction e.action))

def pushIntervalSet (set : ExtTreeSet IntervalIdx) : Bytes := pushSet set

def pushSubintervalMap (map : ExtTreeMap IntervalIdx (ExtTreeSet SubIntervalIdx)) : Bytes :=
  pushMap pushSet map

def pushDigestDiff (diff : DigestDiff) : Bytes :=
  [if diff.coldErasDiffer then 1 else 0] ++
    (pushIntervalSet diff.warmErasDifferences ++ pushSubintervalMap diff.hotErasDifferences)

def pushEvents (events : List EventMetadata) : Bytes := pushAll pushEventMetadata events

def pushFingerprintMap (map : ExtTreeMap IntervalIdx Fingerprint) : Bytes := pushMap pushU64 map

def pushSubFingerprintMap
    (map : ExtTreeMap IntervalIdx (ExtTreeMap SubIntervalIdx Fingerprint)) : Bytes :=
  pushMap pushFingerprintMap map

def encodeDigest (digest : Digest) : Bytes :=
  pushU64 digest.configurationFingerprint ++ (pushU64 digest.coldEraFingerprint ++
    (pushFingerprintMap digest.warmEraFingerprints ++
      pushSubFingerprintMap digest.hotEraFingerprints))

def encodeAlignmentQuery : AlignmentQuery → Bytes
  | .discovery => pushU32 0
  | .all => pushU32 1
  | .diff diff => pushU32 2 ++ pushDigestDiff diff
  | .intervals set => pushU32 3 ++ pushIntervalSet set
  | .subIntervals map => pushU32 4 ++ pushSubintervalMap map
  | .events events => pushU32 5 ++ pushEvents events

def encodeAlignmentReply : AlignmentReply → Bytes
  | .discovery zid => pushU32 0 ++ pushString (zidToZenohHex zid)
  | .intervals map => pushU32 1 ++ pushFingerprintMap map
  | .subIntervals map => pushU32 2 ++ pushSubFingerprintMap map
  | .eventsMetadata events => pushU32 3 ++ pushEvents events
  | .retrieval e => pushU32 4 ++ pushEventMetadata e

end Write

section Read

/-- `core::str::from_utf8`. -/
def isUtf8 (text : Bytes) : Bool := (ByteArray.mk text.toArray).validateUTF8

def readString : Program AlignmentDecodeError Bytes := do
  let text ← readLenPrefixedBytes
  if isUtf8 text then return text else fail .badUtf8

/-- The zeros behind the id are not part of it. -/
def readTimestamp : Program AlignmentDecodeError TimestampHint := do
  let time ← readU64
  let id ← bytes 16
  return ⟨time, canonicalZid id⟩

def readOptionTag : Program AlignmentDecodeError Bool := do
  match ← readU8 with
  | 0 => return false
  | 1 => return true
  | other => fail (.badOptionTag other)

def readOption {α : Type} (read : Program AlignmentDecodeError α) :
    Program AlignmentDecodeError (Option α) := do
  if ← readOptionTag then return some (← read) else return none

def readAction : Program AlignmentDecodeError Action := do
  match ← readU32 with
  | 0 => return .put
  | 1 => return .delete
  | 2 => return .wildcardPut (← readString)
  | 3 => return .wildcardDelete (← readString)
  | other => fail (.unsupportedAction other)

def readEventMetadata : Program AlignmentDecodeError EventMetadata := do
  let key ← readOption readString
  let timestamp ← readTimestamp
  let timestampLastNonWildcardUpdate ← readOption readTimestamp
  let action ← readAction
  return ⟨key, timestamp, timestampLastNonWildcardUpdate, action⟩

variable {ε : Type}

def readIntervalSet : Program ε (ExtTreeSet IntervalIdx) := readSet

def readSubintervalMap : Program ε (ExtTreeMap IntervalIdx (ExtTreeSet SubIntervalIdx)) :=
  readMap readSet

def readFingerprintMap : Program ε (ExtTreeMap IntervalIdx Fingerprint) := readMap readU64

def readSubFingerprintMap :
    Program ε (ExtTreeMap IntervalIdx (ExtTreeMap SubIntervalIdx Fingerprint)) :=
  readMap readFingerprintMap

def readDigestDiff : Program AlignmentDecodeError DigestDiff := do
  let coldErasDiffer ← readOptionTag
  let warmErasDifferences ← readIntervalSet
  let hotErasDifferences ← readSubintervalMap
  return ⟨coldErasDiffer, warmErasDifferences, hotErasDifferences⟩

/-- No event takes fewer than thirty bytes: two tags, a timestamp and an action. -/
def readEvents : Program AlignmentDecodeError (List EventMetadata) :=
  readAll 30 (by decide) readEventMetadata

def readDigest : Program DigestDecodeError Digest := do
  let configurationFingerprint ← readU64
  let coldEraFingerprint ← readU64
  let warmEraFingerprints ← readFingerprintMap
  let hotEraFingerprints ← readSubFingerprintMap
  return ⟨configurationFingerprint, coldEraFingerprint, warmEraFingerprints, hotEraFingerprints⟩

def readAlignmentQuery : Program AlignmentDecodeError AlignmentQuery := do
  match ← readU32 with
  | 0 => return .discovery
  | 1 => return .all
  | 2 => return .diff (← readDigestDiff)
  | 3 => return .intervals (← readIntervalSet)
  | 4 => return .subIntervals (← readSubintervalMap)
  | 5 => return .events (← readEvents)
  | other => fail (.unknownVariant other)

def readDiscovery : Program AlignmentDecodeError AlignmentReply := do
  match zenohHexToZid (← readString) with
  | some zid => return .discovery zid
  | none => fail .badZid

def readAlignmentReply : Program AlignmentDecodeError AlignmentReply := do
  match ← readU32 with
  | 0 => readDiscovery
  | 1 => return .intervals (← readFingerprintMap)
  | 2 => return .subIntervals (← readSubFingerprintMap)
  | 3 => return .eventsMetadata (← readEvents)
  | 4 => return .retrieval (← readEventMetadata)
  | other => fail (.unknownVariant other)

def decodeDigest : Bytes → Except DigestDecodeError Digest := readDigest.decode .trailingBytes

def decodeAlignmentQuery : Bytes → Except AlignmentDecodeError AlignmentQuery :=
  readAlignmentQuery.decode .trailingBytes

def decodeAlignmentReply : Bytes → Except AlignmentDecodeError AlignmentReply :=
  readAlignmentReply.decode .trailingBytes

end Read

end WatchingZenoh.StorageWire
