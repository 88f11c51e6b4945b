import WatchingZenoh.StorageCalls

/-! The registered timestamp of a wildcard update over a run of calls. A registration overwrites
whatever stands under its key expression and kind, and the test for received events looks at the record
of the concrete keys only, so a registration goes back in time exactly when an older update arrives
after a newer one. -/

namespace WatchingZenoh.StorageRegistry

open Timestamp Backend StorageReplication StorageAligner StorageReplica StorageCalls
open Std (ExtTreeMap)

variable {β : Type}

def registry (s : StorageState β) : SampleKind → ExtTreeMap Bytes WildcardUpdate
  | .put => s.wildcardPuts
  | .del => s.wildcardDeletes

def registeredAt (s : StorageState β) (keyexpr : Bytes) (kind : SampleKind) : Option TimestampHint :=
  (registry s kind)[keyexpr]?.map fun wu => wu.data.timestamp

/-- Every registration of `s` stands in `s'` too, with a timestamp that is not strictly older. -/
def NeverBack (s s' : StorageState β) : Prop :=
  ∀ keyexpr kind before, registeredAt s keyexpr kind = some before →
    ∃ after, registeredAt s' keyexpr kind = some after ∧
      timestampStrictlyNewer before after = false

/-- None of the wildcard updates that a call carries is strictly older than the one registered under
its key expression and kind. -/
def Forward (s : StorageState β) (c : Call) : Prop :=
  ∀ w ∈ c.wildcards, ∀ before ∈ registeredAt s w.1 w.2.1,
    timestampStrictlyNewer before w.2.2 = false

theorem NeverBack.refl (s : StorageState β) : NeverBack s s :=
  fun _ _ before h => ⟨before, h, by simp⟩

theorem NeverBack.trans {s s' s'' : StorageState β} (h : NeverBack s s') (h' : NeverBack s' s'') :
    NeverBack s s'' := by
  intro keyexpr kind before hbefore
  obtain ⟨mid, hmid, hle⟩ := h keyexpr kind before hbefore
  obtain ⟨after, hafter, hle'⟩ := h' keyexpr kind mid hmid
  simp only [timestampStrictlyNewer_eq_false] at hle hle'
  exact ⟨after, hafter, timestampStrictlyNewer_eq_false.mpr (hle.trans hle')⟩

variable [FingerprintHash]

theorem registeredAt_register (s : StorageState β) (keyexpr keyexpr' : Bytes)
    (kind kind' : SampleKind) (timestamp : TimestampHint) (payload : Bytes)
    (encoding : Option EncodingHint) :
    registeredAt (s.registerWildcardUpdate keyexpr kind timestamp payload encoding) keyexpr' kind' =
      if (keyexpr, kind) = (keyexpr', kind') then some timestamp
      else registeredAt s keyexpr' kind' := by
  by_cases hke : keyexpr = keyexpr' <;> cases kind <;> cases kind' <;>
    simp [registeredAt, registry, StorageState.registerWildcardUpdate, ExtTreeMap.getElem?_insert,
      hke]

variable [StorageBackend β]

theorem registeredAt_process (s : StorageState β) (key : Option Bytes) (kind : SampleKind)
    (timestamp : TimestampHint) (payload : Bytes) (encoding : Option EncodingHint) :
    registeredAt (s.process key kind timestamp payload encoding).1 = registeredAt s := by
  obtain ⟨hputs, hdeletes, -⟩ := process_rest s key kind timestamp payload encoding
  funext keyexpr kind'
  cases kind' <;> simp [registeredAt, registry, hputs, hdeletes]

theorem keeps_neverBack (s : StorageState β) :
    Keeps (NeverBack s) fun w => ∀ before ∈ registeredAt s w.1 w.2.1,
      timestampStrictlyNewer before w.2.2 = false where
  process s' key kind timestamp payload encoding h := by
    intro keyexpr kind' before hbefore
    rw [registeredAt_process]
    exact h keyexpr kind' before hbefore
  register s' keyexpr kind timestamp payload encoding hforward h := by
    intro keyexpr' kind' before hbefore
    rw [registeredAt_register]
    split_ifs with heq
    · obtain ⟨rfl, rfl⟩ := Prod.mk.inj heq
      exact ⟨timestamp, rfl, hforward before hbefore⟩
    · exact h keyexpr' kind' before hbefore

omit [StorageBackend β] in
theorem registeredAt_replicationDigest (s : StorageState β) (config : ReplicationConfig)
    (bound : IntervalIdx) :
    registeredAt (s.replicationDigest config bound).1 = registeredAt s := by
  unfold StorageState.replicationDigest
  dsimp only
  split_ifs
  · rfl
  · funext keyexpr kind
    cases kind <;> rfl

theorem neverBack_call {s : StorageState β} {c : Call} (hforward : Forward s c)
    (hcollects : c.collects = false) : NeverBack s (call s c) := by
  cases c with
  | collectGarbage => simp [Call.collects] at hcollects
  | digest config bound =>
    intro keyexpr kind before hbefore
    exact ⟨before, by rwa [call, registeredAt_replicationDigest], by simp⟩
  | put key payload encoding timestamp =>
    exact (keeps_neverBack s).process s key .put timestamp payload encoding (.refl s)
  | delete key timestamp =>
    exact (keeps_neverBack s).process s key .del timestamp [] none (.refl s)
  | sample view fallback => exact (keeps_neverBack s).applySample (.refl s) view fallback hforward
  | reply config reply value =>
    exact (keeps_neverBack s).processAlignmentReply (.refl s) config reply value hforward

/-- Every call of the run is forward in the state it meets. -/
def ForwardRun : StorageState β → List Call → Prop
  | _, [] => True
  | s, c :: calls => Forward s c ∧ ForwardRun (call s c) calls

theorem forwardRun_append {s : StorageState β} {calls rest : List Call} :
    ForwardRun s (calls ++ rest) ↔ ForwardRun s calls ∧ ForwardRun (run s calls) rest := by
  induction calls generalizing s with
  | nil => simp [ForwardRun, run]
  | cons c calls ih =>
    simp only [List.cons_append, ForwardRun, ih, and_assoc]
    rfl

theorem neverBack_run {s : StorageState β} {calls : List Call} (h : ForwardRun s calls)
    (hcollects : ∀ c ∈ calls, c.collects = false) : NeverBack s (run s calls) := by
  induction calls generalizing s with
  | nil => exact .refl s
  | cons c calls ih =>
    exact (neverBack_call h.1 (hcollects c (by simp))).trans
      (ih h.2 fun d hd => hcollects d (by simp [hd]))

/-- In a run whose calls are all forward, no registration goes back between two states that no garbage
collection lies between; `between` is a single call or any stretch of the run. -/
theorem registration_never_back (s : StorageState β) (calls before between after : List Call)
    (hrun : calls = before ++ between ++ after) (hforward : ForwardRun s calls)
    (hcollects : ∀ c ∈ between, c.collects = false) :
    NeverBack (run s before) (run s (before ++ between)) := by
  rw [hrun, forwardRun_append, forwardRun_append] at hforward
  have hsplit : run s (before ++ between) = run (run s before) between := List.foldl_append
  rw [hsplit]
  exact neverBack_run hforward.1.2 hcollects

/-- The capture of a wildcard delete of everything. -/
def deleteAll (time : UInt64) : Call := .sample ⟨doubleStar, .del, some ⟨time, [1]⟩, [], none⟩ ⟨0, []⟩

omit [FingerprintHash] in
/-- The same wildcard delete, first at one time and then at a later one. -/
theorem registration_never_back_repeated :
    letI := timeHash
    let s : StorageState MemoryStorage := .empty .new none
    ForwardRun s [deleteAll 5, deleteAll 6] ∧
      NeverBack (run s [deleteAll 5]) (run s [deleteAll 5, deleteAll 6]) := by
  let _ := timeHash
  have hforward : ForwardRun (.empty MemoryStorage.new none) [deleteAll 5, deleteAll 6] :=
    ⟨by unfold Forward; decide, by unfold Forward; decide, trivial⟩
  exact ⟨hforward, registration_never_back _ [deleteAll 5, deleteAll 6] [deleteAll 5] [deleteAll 6] []
    rfl hforward (by decide)⟩

omit [FingerprintHash] in
/-- The other way round the registration goes back, and two replicas that hear of each other's events
exchange the newer and the older one. -/
theorem registration_goes_back :
    letI := timeHash
    let s : StorageState MemoryStorage := .empty .new none
    let config : ReplicationConfig := ⟨[], none, 10000, 5, 6, 30, 250, by decide, by decide⟩
    let a := run s [deleteAll 5]
    let b := run s [deleteAll 6]
    ¬ NeverBack b (run b [deleteAll 5]) ∧
      registeredAt (call a (.reply config (.eventsMetadata b.replicationEvents) none)) doubleStar
        .del = registeredAt b doubleStar .del ∧
      registeredAt (call b (.reply config (.eventsMetadata a.replicationEvents) none)) doubleStar
        .del = registeredAt a doubleStar .del ∧
      registeredAt a doubleStar .del ≠ registeredAt b doubleStar .del := by
  let _ := timeHash
  refine ⟨fun h => ?_, by decide, by decide, by decide⟩
  obtain ⟨after, hafter, hle⟩ := h doubleStar .del ⟨6, [1]⟩ (by decide)
  have hback : registeredAt (run (.empty MemoryStorage.new none) [deleteAll 6, deleteAll 5])
      doubleStar .del = some ⟨5, [1]⟩ := by decide
  obtain rfl : (⟨5, [1]⟩ : TimestampHint) = after := Option.some.inj (hback.symm.trans hafter)
  exact absurd hle (by decide)

end WatchingZenoh.StorageRegistry
