import WatchingZenoh.StorageCalls
import WatchingZenoh.StorageTally
import WatchingZenoh.Library.TreeMaps

/-! The maintained digest is the recomputed one, in every state that any sequence of calls leads to,
whatever the backend answers and however often the configuration changes. The log follows the event
stream of the state: each write takes the event it displaces out of the bucket it was hashed into. -/

namespace WatchingZenoh.StorageDigest

open Timestamp Backend StorageReplication StorageAligner StorageReplica StorageCalls
open StorageTally NestedMap TreeMaps
open Std (ExtTreeMap)

variable [FingerprintHash]

section RollUp

variable {config : ReplicationConfig} {log : ReplicationLog} {events : List LogEvent}

/-- The buckets with nothing but their fingerprints. -/
def fingerprints {α : Type} (fingerprint : α → Fingerprint)
    (intervals : ExtTreeMap IntervalIdx (ExtTreeMap SubIntervalIdx α)) :
    ExtTreeMap IntervalIdx (ExtTreeMap SubIntervalIdx Fingerprint) :=
  intervals.map fun _ (subs : ExtTreeMap SubIntervalIdx α) => subs.map fun _ => fingerprint

theorem rollUp_map {α : Type} (fingerprint : α → Fingerprint)
    (intervals : ExtTreeMap IntervalIdx (ExtTreeMap SubIntervalIdx α)) (bound : IntervalIdx) :
    rollUp fingerprint config intervals bound =
      rollUp id config (fingerprints fingerprint intervals) bound := by
  have hfp : ∀ subs : ExtTreeMap SubIntervalIdx α,
      (subs.map fun _ => fingerprint).foldl (fun acc _ sub => acc ^^^ id sub) 0 =
        subs.foldl (fun acc _ sub => acc ^^^ fingerprint sub) 0 := by
    intro subs
    simp only [ExtTreeMap.foldl_eq_foldl_toList, ExtTreeMap.toList_map, List.foldl_map, id]
  have hsubs : ∀ subs : ExtTreeMap SubIntervalIdx α,
      (((subs.map fun _ => fingerprint).filter fun _ sub => id sub ≠ 0).map fun _ => id) =
        (subs.filter fun _ sub => fingerprint sub ≠ 0).map fun _ => fingerprint := by
    intro subs
    refine ExtTreeMap.ext_getElem? fun j => ?_
    rcases hj : subs[j]? with _ | sub <;>
      simp [ExtTreeMap.getElem?_filter, hj, Option.filter, apply_ite (Option.map fingerprint)]
  simp only [rollUp, fingerprints]
  rw [ExtTreeMap.foldl_eq_foldl_toList, ExtTreeMap.foldl_eq_foldl_toList, ExtTreeMap.toList_map,
    List.foldl_map]
  simp only [hfp, hsubs]

theorem gather_fingerprint_eq {intervals : ExtTreeMap IntervalIdx (ExtTreeMap SubIntervalIdx
      SubIntervalBucket)} (h : Tallies config intervals events) :
    fingerprints SubIntervalBucket.fingerprint intervals =
      gather (fun event => config.classify event.2.time) 0
        (fun event fp => fp ^^^ eventFingerprint event.1 event.2) events := by
  refine ext_cell ?_ (pruned_gather _ _ _ events) fun i j => ?_
  · intro i inner hi
    rw [fingerprints, ExtTreeMap.getElem?_map, Option.map_eq_some_iff] at hi
    obtain ⟨subs, hi, rfl⟩ := hi
    simpa using h.pruned i subs hi
  · have hcell : cell (fingerprints SubIntervalBucket.fingerprint intervals) i j =
        (cell intervals i j).map SubIntervalBucket.fingerprint := by
      rcases hi : intervals[i]? with _ | subs <;> simp [cell, fingerprints, hi]
    have hgather := cell_gather (fun event : LogEvent => config.classify event.2.time) 0
      (fun event fp => fp ^^^ eventFingerprint event.1 event.2) events (i, j)
    rw [hcell, h.cells (i, j), hgather, ← eventsAt, summary]
    split_ifs with hnone
    · rfl
    · rfl

/-- A log that follows the events has their digest. -/
theorem digestFrom_eq_buildDigest (h : Follows log events) (hbound : log.binding = some config)
    (bound : IntervalIdx) : log.digestFrom config bound = buildDigest config events bound := by
  rw [ReplicationLog.digestFrom, rollUp_map, gather_fingerprint_eq (h config hbound), buildDigest]

end RollUp

section States

variable {β : Type} {s : StorageState β}

def LogFollows (s : StorageState β) : Prop := Follows s.replicationLog s.replicationEventStream

omit [FingerprintHash] in
theorem stream_eq (s : StorageState β) :
    (s.replicationEventStream : Multiset LogEvent) =
      (s.latest.toList.map fun entry => (entry.1, entry.2.timestamp) : List LogEvent) +
      (s.wildcardPuts.toList.map fun entry => (some entry.1, entry.2.data.timestamp) :
        List LogEvent) +
      (s.wildcardDeletes.toList.map fun entry => (some entry.1, entry.2.data.timestamp) :
        List LogEvent) := by
  simp [StorageState.replicationEventStream, StorageState.wildcardReplicationEntries]

/-- Writing one entry of a map whose entries are events, next to events that stay. -/
theorem follows_insert {κ α : Type} [Ord κ] [Std.TransOrd κ] [Std.LawfulEqOrd κ] [DecidableEq κ]
    {log : ReplicationLog} {stream stream' : List LogEvent} (h : Follows log stream)
    (m : ExtTreeMap κ α) (k : κ) (a : α) (keyOf : κ → Option Bytes) (stamp : α → TimestampHint)
    (other : Multiset LogEvent)
    (hstream : (stream : Multiset LogEvent) =
      (m.toList.map fun entry => (keyOf entry.1, stamp entry.2) : List LogEvent) + other)
    (hstream' : (stream' : Multiset LogEvent) =
      ((m.insert k a).toList.map fun entry => (keyOf entry.1, stamp entry.2) : List LogEvent) +
        other) :
    Follows (log.apply (keyOf k) (m[k]?.map stamp) (some (stamp a))) stream' := by
  obtain ⟨rest, hbefore, hafter⟩ := exists_rest_insert m k a
    fun entry => ((keyOf entry.1, stamp entry.2) : LogEvent)
  rw [← Multiset.coe_eq_coe] at hbefore hafter
  obtain ⟨others, rfl⟩ := Quot.exists_rep other
  have hdisplaced : Follows log
      (((m[k]?.map stamp).toList.map fun t => (keyOf k, t)) ++ (rest ++ others)) := by
    refine h.perm (Multiset.coe_eq_coe.mp ?_)
    rw [hstream, hbefore]
    rcases m[k]? with _ | old <;> simp
  refine (follows_apply hdisplaced (some (stamp a))).perm (Multiset.coe_eq_coe.mp ?_)
  rw [hstream', hafter]
  simp

theorem logFollows_recordLatest (h : LogFollows s) (key : Option Bytes) (timestamp : TimestampHint)
    (kind : SampleKind) : LogFollows (s.recordLatest key timestamp kind) := by
  refine follows_insert h s.latest key ⟨timestamp, kind⟩ id LatestEvent.timestamp
    ((s.wildcardPuts.toList.map fun entry => (some entry.1, entry.2.data.timestamp) :
        List LogEvent) +
      (s.wildcardDeletes.toList.map fun entry => (some entry.1, entry.2.data.timestamp) :
        List LogEvent)) ?_ ?_
  · rw [stream_eq, add_assoc]
    rfl
  · rw [stream_eq, add_assoc]
    rfl

theorem logFollows_register (h : LogFollows s) (keyexpr : Bytes) (kind : SampleKind)
    (timestamp : TimestampHint) (payload : Bytes) (encoding : Option EncodingHint) :
    LogFollows (s.registerWildcardUpdate keyexpr kind timestamp payload encoding) := by
  cases kind with
  | put =>
    refine follows_insert h s.wildcardPuts keyexpr ⟨.put, payload, encoding, timestamp⟩ some
      (fun wu => wu.data.timestamp)
      ((s.latest.toList.map fun entry => (entry.1, entry.2.timestamp) : List LogEvent) +
        (s.wildcardDeletes.toList.map fun entry => (some entry.1, entry.2.data.timestamp) :
          List LogEvent)) ?_ ?_
    · rw [stream_eq, ← add_assoc, add_comm (Multiset.ofList _) (Multiset.ofList _)]
    · rw [stream_eq, ← add_assoc, add_comm (Multiset.ofList _) (Multiset.ofList _)]
      rfl
  | del =>
    refine follows_insert h s.wildcardDeletes keyexpr ⟨.del, payload, encoding, timestamp⟩ some
      (fun wu => wu.data.timestamp)
      ((s.latest.toList.map fun entry => (entry.1, entry.2.timestamp) : List LogEvent) +
        (s.wildcardPuts.toList.map fun entry => (some entry.1, entry.2.data.timestamp) :
          List LogEvent)) ?_ ?_
    · rw [stream_eq, add_comm]
    · rw [stream_eq, add_comm]
      rfl

theorem follows_foldl_forget {log : ReplicationLog} {rest : List LogEvent}
    (collected : List (Bytes × TimestampHint))
    (h : Follows log ((collected.map fun entry => (some entry.1, entry.2)) ++ rest)) :
    Follows (collected.foldl
      (fun log entry => log.apply (some entry.1) (some entry.2) none) log) rest := by
  induction collected generalizing log with
  | nil => exact h
  | cons entry collected ih =>
    refine ih ?_
    exact @follows_apply _ log _ (some entry.1) (some entry.2) h none

theorem logFollows_collectGarbage (h : LogFollows s) (now : UInt64) (lifespan : TimeRange.Duration) :
    LogFollows (s.collectGarbage now lifespan) := by
  refine follows_foldl_forget _ (h.perm (Multiset.coe_eq_coe.mp ?_))
  set limit := saturatingSub now (TimeRange.Ntp64.fromDuration lifespan).asWord with hlimit
  set old : Bytes × WildcardUpdate → Bool := fun entry => entry.2.data.timestamp.time < limit
    with hold
  have hkept : ∀ entry : Bytes × WildcardUpdate,
      decide (entry.2.data.timestamp.time ≥ limit) = !old entry := by
    intro entry
    rw [hold, ← decide_not, decide_eq_decide, UInt64.not_lt]
  have hafter : (s.collectGarbage now lifespan).wildcardReplicationEntries =
      s.wildcardReplicationEntries.filter fun entry => !old entry := by
    simp only [StorageState.collectGarbage, StorageState.wildcardReplicationEntries,
      ExtTreeMap.toList_filter, List.filter_append, ← hlimit, hkept]
  have hsplit := (List.filter_append_perm old s.wildcardReplicationEntries).map
    fun entry => ((some entry.1, entry.2.data.timestamp) : LogEvent)
  rw [← Multiset.coe_eq_coe] at hsplit
  simp only [StorageState.replicationEventStream, hafter]
  rw [← Multiset.coe_add, ← hsplit, List.map_append, ← Multiset.coe_add, ← Multiset.coe_add,
    ← Multiset.coe_add, List.map_map, add_left_comm]
  rfl

theorem logFollows_replicationDigest (h : LogFollows s) (config : ReplicationConfig)
    (bound : IntervalIdx) : LogFollows (s.replicationDigest config bound).1 := by
  unfold StorageState.replicationDigest
  dsimp only
  split_ifs
  · exact h
  · exact follows_seed config s.replicationEventStream

variable [StorageBackend β]

theorem keeps_logFollows : Keeps (β := β) LogFollows fun _ => True where
  process s key kind timestamp payload encoding h := by
    rcases process_cases s key kind timestamp payload encoding with hs | ⟨backend, hs | hs⟩
    · rw [hs]
      exact h
    · rw [hs]
      exact h
    · rw [hs]
      exact logFollows_recordLatest h key timestamp kind
  register s keyexpr kind timestamp payload encoding _ h :=
    logFollows_register h keyexpr kind timestamp payload encoding

theorem logFollows_run (h : LogFollows s) (calls : List Call) : LogFollows (run s calls) := by
  induction calls generalizing s with
  | nil => exact h
  | cons c calls ih =>
    exact ih (keeps_logFollows.call h (logFollows_collectGarbage h)
      (fun config bound => logFollows_replicationDigest h config bound) c fun _ _ => trivial)

theorem logFollows_withStripPrefix {backend : β} {stripPrefix : Option Bytes}
    (h : StorageState.withStripPrefix backend stripPrefix = .ok s) : LogFollows s := by
  have hempty : LogFollows (StorageState.empty backend stripPrefix) := fun config hbound => by
    simp [StorageState.empty, ReplicationLog.new] at hbound
  have hfold : ∀ (entries : List (Option Bytes × TimestampHint)) {s : StorageState β},
      LogFollows s →
        LogFollows (entries.foldl (fun s entry => s.recordLatest entry.1 entry.2 .put) s) := by
    intro entries
    induction entries with
    | nil => exact fun hs => hs
    | cons entry entries ih => exact fun hs => ih (logFollows_recordLatest hs _ _ _)
  unfold StorageState.withStripPrefix StorageState.hydrated at h
  split_ifs at h
  · split at h
    · simp at h
    · rw [Except.ok.injEq] at h
      exact h ▸ hfold _ hempty
  · rw [Except.ok.injEq] at h
    exact h ▸ hempty

/-- The maintained digest of every state that a run of calls leads to. -/
theorem replicationDigest_eq_recomputed (backend : β) (stripPrefix : Option Bytes)
    (s : StorageState β) (hnew : StorageState.withStripPrefix backend stripPrefix = .ok s)
    (calls : List Call) (config : ReplicationConfig) (hotEraUpperBound : IntervalIdx) :
    ((run s calls).replicationDigest config hotEraUpperBound).2 =
      (run s calls).recomputedReplicationDigest config hotEraUpperBound := by
  have hfollows := logFollows_run (logFollows_withStripPrefix hnew) calls
  unfold StorageState.replicationDigest StorageState.recomputedReplicationDigest
  dsimp only
  split_ifs with hbound
  · exact digestFrom_eq_buildDigest hfollows (by simpa [ReplicationLog.isBoundTo] using hbound) _
  · exact digestFrom_eq_buildDigest (follows_seed config _) (seed_binding config _) _

omit [FingerprintHash] in
/-- A put, a digest, a wildcard delete over it and the delete of another key, read under a second
configuration. -/
theorem replicationDigest_eq_recomputed_rebound :
    letI := timeHash
    let config : ReplicationConfig := ⟨[], none, 10000, 5, 6, 30, 250, by decide, by decide⟩
    let s : StorageState MemoryStorage := .empty .new none
    let calls : List Call := [.put (some [0x61]) [1] none ⟨5, [1]⟩, .digest config 0,
      .sample ⟨doubleStar, .del, some ⟨8, [1]⟩, [], none⟩ ⟨0, []⟩, .delete (some [0x62]) ⟨9, [1]⟩]
    ((run s calls).replicationDigest { config with hot := 0 } 0).2 =
      (run s calls).recomputedReplicationDigest { config with hot := 0 } 0 := by
  let _ := timeHash
  exact replicationDigest_eq_recomputed MemoryStorage.new none (.empty .new none) rfl _ _ _

end States

end WatchingZenoh.StorageDigest
