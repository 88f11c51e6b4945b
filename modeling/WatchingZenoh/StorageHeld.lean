import WatchingZenoh.Library.Newest
import WatchingZenoh.StorageCalls

/-! A memory storage as a map from keys to the newest thing heard of each: a timestamp with a value, or
with a tombstone. The record and the backend are written separately; that they agree is the invariant
under which a gated write is an offer to the register of its key. -/

namespace WatchingZenoh.StorageHeld

open Timestamp Backend StorageReplication StorageAligner StorageReplica StorageCalls Newest
open Std (ExtTreeMap)

structure Held where
  timestamp : TimestampHint
  content : Option (Bytes × Option EncodingHint)
  deriving DecidableEq, Repr

abbrev Memory := StorageState MemoryStorage

def heldStamp (h : Held) : ℕ ×ₗ List ℕ := timestampOrderKey h.timestamp

def heldOf (kind : SampleKind) (timestamp : TimestampHint) (payload : Bytes)
    (encoding : Option EncodingHint) : Held :=
  ⟨timestamp, match kind with
    | .put => some (payload, encoding)
    | .del => none⟩

def held (s : Memory) (key : Option Bytes) : Option Held :=
  s.latest[key]?.map fun event =>
    ⟨event.timestamp, s.backend.map[key]?.map fun data => (data.payload, data.encoding)⟩

/-- What the record of a key says of the backend. -/
def RecordAgrees (record : Option LatestEvent) (stored : Option StoredData) : Prop :=
  match record with
  | none => stored = none
  | some ⟨timestamp, .put⟩ => ∃ data, stored = some data ∧ data.timestamp = timestamp
  | some ⟨_, .del⟩ => stored = none

def Coherent (s : Memory) : Prop :=
  ∀ key : Option Bytes, RecordAgrees s.latest[key]? s.backend.map[key]?

theorem Coherent.put_iff {s : Memory} (h : Coherent s) (key : Option Bytes) (t : TimestampHint) :
    s.latest[key]? = some ⟨t, .put⟩ ↔
      ∃ data, s.backend.map[key]? = some data ∧ data.timestamp = t := by
  have hkey := h key
  constructor
  · intro hrecord
    rwa [hrecord] at hkey
  · rintro ⟨data, hdata, rfl⟩
    rcases hrecord : s.latest[key]? with _ | ⟨timestamp, kind⟩
    · simp [RecordAgrees, hrecord, hdata] at hkey
    · cases kind with
      | put =>
        obtain ⟨data', hdata', rfl⟩ : ∃ d, s.backend.map[key]? = some d ∧ d.timestamp = timestamp := by
          simpa [RecordAgrees, hrecord] using hkey
        rw [Option.some.inj (hdata.symm.trans hdata')]
      | del => simp [RecordAgrees, hrecord, hdata] at hkey

theorem eq_of_held {s s' : Memory} (hs : Coherent s) (hs' : Coherent s') {key : Option Bytes}
    (h : held s key = held s' key) :
    s.latest[key]? = s'.latest[key]? ∧ s.backend.map[key]? = s'.backend.map[key]? := by
  have hc := hs key
  have hc' := hs' key
  unfold held at h
  rcases hrec : s.latest[key]? with _ | ⟨t, kind⟩ <;>
    rcases hrec' : s'.latest[key]? with _ | ⟨t', kind'⟩ <;>
    rw [hrec, hrec'] at h <;> rw [hrec] at hc <;> rw [hrec'] at hc'
  · exact ⟨rfl, Eq.trans hc hc'.symm⟩
  · simp at h
  · simp at h
  · simp only [Option.map_some, Option.some.injEq, Held.mk.injEq] at h
    obtain ⟨rfl, hcontent⟩ := h
    cases kind <;> cases kind'
    · obtain ⟨data, hdata, rfl⟩ := hc
      obtain ⟨data', hdata', hstamp⟩ := hc'
      simp only [hdata, hdata', Option.map_some, Option.some.injEq, Prod.mk.injEq] at hcontent
      refine ⟨rfl, ?_⟩
      rw [hdata, hdata']
      rcases data
      rcases data'
      simp_all
    · obtain ⟨data, hdata, rfl⟩ := hc
      rw [show s'.backend.map[key]? = none from hc', hdata] at hcontent
      simp at hcontent
    · obtain ⟨data, hdata, rfl⟩ := hc'
      rw [show s.backend.map[key]? = none from hc, hdata] at hcontent
      simp at hcontent
    · exact ⟨rfl, Eq.trans hc hc'.symm⟩

variable [FingerprintHash]

section Process

variable {s : Memory} (key : Option Bytes) (kind : SampleKind) (timestamp : TimestampHint)
  (payload : Bytes) (encoding : Option EncodingHint)

omit [FingerprintHash] in
/-- The gate lets an update through unless something strictly newer is held. -/
theorem accepts_iff (h : Coherent s) :
    s.accepts key timestamp = true ↔
      ∀ b, held s key = some b → heldStamp b ≤ timestampOrderKey timestamp := by
  unfold StorageState.accepts
  rcases hrec : s.latest[key]? with _ | event
  · have habsent : s.backend.map[key]? = none := by simpa [RecordAgrees, hrec] using h key
    have hget : StorageBackend.get s.backend key = .ok [] := by
      simp [StorageBackend.get, MemoryStorage.get, habsent]
    simp [hget, held, hrec]
  · simp [held, hrec, heldStamp]

def wrote (s : Memory) (key : Option Bytes) (kind : SampleKind) (timestamp : TimestampHint)
    (payload : Bytes) (encoding : Option EncodingHint) : MemoryStorage :=
  match kind with
  | .put => ⟨s.backend.map.insert key ⟨payload, encoding, timestamp⟩⟩
  | .del => ⟨s.backend.map.erase key⟩

theorem process_of_accepts (haccepts : s.accepts key timestamp = true) :
    (s.process key kind timestamp payload encoding).1 =
      StorageState.recordLatest { s with backend := wrote s key kind timestamp payload encoding } key
        timestamp kind := by
  have hlatest : s.latestMode = true := rfl
  cases kind <;>
    simp [StorageState.process, StorageState.processPut, StorageState.processDelete,
      StorageState.processWrite, hlatest, haccepts, wrote, StorageBackend.put,
      StorageBackend.delete, MemoryStorage.put, MemoryStorage.delete]

theorem process_of_refuses (haccepts : s.accepts key timestamp = false) :
    (s.process key kind timestamp payload encoding).1 = s := by
  have hlatest : s.latestMode = true := rfl
  cases kind <;>
    simp [StorageState.process, StorageState.processPut, StorageState.processDelete,
      StorageState.processWrite, hlatest, haccepts]

theorem held_written (key' : Option Bytes) :
    held (StorageState.recordLatest { s with backend := wrote s key kind timestamp payload encoding }
      key timestamp kind) key' =
      if key = key' then some (heldOf kind timestamp payload encoding) else held s key' := by
  by_cases hkey : key = key'
  · subst hkey
    cases kind <;> simp [held, StorageState.recordLatest, wrote, heldOf]
  · cases kind <;>
      simp [held, StorageState.recordLatest, wrote, ExtTreeMap.getElem?_insert,
        ExtTreeMap.getElem?_erase, hkey]

theorem coherent_written (h : Coherent s) :
    Coherent (StorageState.recordLatest
      { s with backend := wrote s key kind timestamp payload encoding } key timestamp kind) := by
  intro key'
  by_cases hkey : key = key'
  · subst hkey
    cases kind <;> simp [RecordAgrees, StorageState.recordLatest, wrote]
  · have hold := h key'
    cases kind <;>
      simpa [StorageState.recordLatest, wrote, ExtTreeMap.getElem?_insert,
        ExtTreeMap.getElem?_erase, hkey] using hold

theorem coherent_process (h : Coherent s) :
    Coherent (s.process key kind timestamp payload encoding).1 := by
  rcases haccepts : s.accepts key timestamp with _ | _
  · rwa [process_of_refuses key kind timestamp payload encoding haccepts]
  · rw [process_of_accepts key kind timestamp payload encoding haccepts]
    exact coherent_written key kind timestamp payload encoding h

theorem held_process (h : Coherent s) (key' : Option Bytes) :
    held (s.process key kind timestamp payload encoding).1 key' =
      if key = key' then offer heldStamp (held s key) (heldOf kind timestamp payload encoding)
      else held s key' := by
  rcases haccepts : s.accepts key timestamp with _ | _
  · rw [process_of_refuses key kind timestamp payload encoding haccepts]
    have hnewer : ¬ ∀ b, held s key = some b → heldStamp b ≤ timestampOrderKey timestamp := by
      rw [← accepts_iff key timestamp h, haccepts]
      simp
    push Not at hnewer
    obtain ⟨b, hb, hlt⟩ := hnewer
    split_ifs with hkey
    · rw [← hkey, offer_of_lt hb hlt]
    · rfl
  · rw [process_of_accepts key kind timestamp payload encoding haccepts, held_written]
    split_ifs with hkey
    · exact (offer_of_le ((accepts_iff key timestamp h).mp haccepts)).symm
    · rfl

end Process

section Open

def recordAll (s : Memory) (entries : List (Option Bytes × TimestampHint)) : Memory :=
  entries.foldl (fun s entry => s.recordLatest entry.1 entry.2 .put) s

theorem recordAll_rest (s : Memory) (entries : List (Option Bytes × TimestampHint)) :
    (recordAll s entries).backend = s.backend ∧ (recordAll s entries).stripPrefix = s.stripPrefix ∧
      (recordAll s entries).wildcardPuts = s.wildcardPuts ∧
      (recordAll s entries).wildcardDeletes = s.wildcardDeletes := by
  induction entries generalizing s with
  | nil => exact ⟨rfl, rfl, rfl, rfl⟩
  | cons entry entries ih => exact ih (s.recordLatest entry.1 entry.2 .put)

theorem recordAll_latest (s : Memory) (entries : List (Option Bytes × TimestampHint))
    (key : Option Bytes) :
    ((recordAll s entries).latest[key]? = s.latest[key]? ∧ ∀ t, (key, t) ∉ entries) ∨
      ∃ t, (recordAll s entries).latest[key]? = some ⟨t, .put⟩ ∧ (key, t) ∈ entries := by
  induction entries generalizing s with
  | nil => exact .inl ⟨rfl, by simp⟩
  | cons entry entries ih =>
    rcases ih (s.recordLatest entry.1 entry.2 .put) with ⟨hsame, hnone⟩ | ⟨t, ht, hin⟩
    · by_cases hkey : entry.1 = key
      · refine .inr ⟨entry.2, ?_, by simp [← hkey]⟩
        refine hsame.trans ?_
        simp [StorageState.recordLatest, hkey]
      · refine .inl ⟨hsame.trans ?_, fun t ht => ?_⟩
        · simp [StorageState.recordLatest, ExtTreeMap.getElem?_insert, hkey]
        · rcases List.mem_cons.mp ht with rfl | ht
          · exact hkey rfl
          · exact hnone t ht
    · exact .inr ⟨t, ht, List.mem_cons_of_mem _ hin⟩

omit [FingerprintHash] in
theorem mem_getAllEntries {m : MemoryStorage} {key : Option Bytes} {t : TimestampHint} :
    (key, t) ∈ m.getAllEntries ↔ ∃ data, m.map[key]? = some data ∧ data.timestamp = t := by
  simp only [MemoryStorage.getAllEntries, List.mem_map, Prod.exists, Prod.mk.injEq,
    ExtTreeMap.mem_toList_iff_getElem?_eq_some]
  constructor
  · rintro ⟨k, data, hdata, rfl, rfl⟩
    exact ⟨data, hdata, rfl⟩
  · rintro ⟨data, hdata, rfl⟩
    exact ⟨key, data, hdata, rfl, rfl⟩

/-- A storage opened over a memory backend is coherent, whatever the backend held before. -/
theorem coherent_withStripPrefix {backend : MemoryStorage} {stripPrefix : Option Bytes} {s : Memory}
    (h : StorageState.withStripPrefix backend stripPrefix = .ok s) :
    Coherent s ∧ s.stripPrefix = stripPrefix ∧ s.wildcardPuts = ∅ ∧ s.wildcardDeletes = ∅ := by
  obtain rfl : recordAll (.empty backend stripPrefix) backend.getAllEntries = s := Except.ok.inj h
  obtain ⟨hbackend, hstrip, hputs, hdeletes⟩ :=
    recordAll_rest (.empty backend stripPrefix) backend.getAllEntries
  refine ⟨fun key => ?_, hstrip, hputs, hdeletes⟩
  rw [hbackend]
  rcases recordAll_latest (.empty backend stripPrefix) backend.getAllEntries key with
    ⟨hrec, hnone⟩ | ⟨t, hrec, hin⟩
  · have habsent : backend.map[key]? = none := by
      rcases hdata : backend.map[key]? with _ | data
      · rfl
      · exact absurd (mem_getAllEntries.mpr ⟨data, hdata, rfl⟩) (hnone data.timestamp)
    rw [hrec]
    simpa [RecordAgrees, StorageState.empty] using habsent
  · rw [hrec]
    exact mem_getAllEntries.mp hin

end Open

end WatchingZenoh.StorageHeld
