import Mathlib
import WatchingZenoh.Timestamp

/-! The bare store under a storage: it overwrites verbatim and compares nothing. A medium may refuse a
write or a read; the memory backend is a map and refuses neither. -/

namespace WatchingZenoh.Backend

open Timestamp
open Std (ExtTreeMap)

/-- The order of stripped keys. -/
instance instTransOrdStripped : Std.TransOrd (Option Bytes) := inferInstance

instance instLawfulEqOrdStripped : Std.LawfulEqOrd (Option Bytes) := inferInstance

structure EncodingHint where
  packedId : UInt32
  schema : Option Bytes
  deriving DecidableEq, Repr

inductive SampleKind where
  | put
  | del
  deriving DecidableEq, Repr

inductive StorageInsertionResult where
  | outdated
  | inserted
  | replaced
  | deleted
  deriving DecidableEq, Repr

structure StorageWriteError where
  deriving DecidableEq, Repr

structure StorageReadError where
  deriving DecidableEq, Repr

abbrev StorageWriteResult := Except StorageWriteError StorageInsertionResult

inductive History where
  | latest
  | all
  deriving DecidableEq, Repr

structure StoredData where
  payload : Bytes
  encoding : Option EncodingHint
  timestamp : TimestampHint
  deriving DecidableEq, Repr

/-- A backend over keys of which `none` is the mount root. A write returns the backend it leaves, also
when it fails. -/
class StorageBackend (β : Type) where
  put : β → Option Bytes → Bytes → Option EncodingHint → TimestampHint → β × StorageWriteResult
  delete : β → Option Bytes → TimestampHint → β × StorageWriteResult
  get : β → Option Bytes → Except StorageReadError (List StoredData)
  getAllEntries : β → Except StorageReadError (List (Option Bytes × TimestampHint))
  history : β → History

structure MemoryStorage where
  map : ExtTreeMap (Option Bytes) StoredData
  deriving DecidableEq

namespace MemoryStorage

def new : MemoryStorage := ⟨∅⟩

def put (m : MemoryStorage) (key : Option Bytes) (payload : Bytes) (encoding : Option EncodingHint)
    (timestamp : TimestampHint) : MemoryStorage × StorageWriteResult :=
  (⟨m.map.insert key ⟨payload, encoding, timestamp⟩⟩,
    .ok (if m.map.contains key then .replaced else .inserted))

/-- Deleting an absent key is a deletion too. -/
def delete (m : MemoryStorage) (key : Option Bytes) (_ : TimestampHint) :
    MemoryStorage × StorageWriteResult :=
  (⟨m.map.erase key⟩, .ok .deleted)

def get (m : MemoryStorage) (key : Option Bytes) : List StoredData := m.map[key]?.toList

def getAllEntries (m : MemoryStorage) : List (Option Bytes × TimestampHint) :=
  m.map.toList.map fun entry => (entry.1, entry.2.timestamp)

instance : StorageBackend MemoryStorage where
  put := put
  delete := delete
  get m key := .ok (m.get key)
  getAllEntries m := .ok m.getAllEntries
  history _ := .latest

end MemoryStorage

end WatchingZenoh.Backend
