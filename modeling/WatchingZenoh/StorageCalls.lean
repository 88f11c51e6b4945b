import WatchingZenoh.StorageState

/-! The calls a storage state answers, and what each can do: every one of them is made of gated writes,
of registrations of the wildcard updates it carries, and of changes to the log and to the registries
that leave the keys alone. A property that those keep is kept by every call. -/

namespace WatchingZenoh.StorageCalls

open Timestamp Backend StorageReplication StorageAligner StorageReplica

inductive Call where
  | put (key : Option Bytes) (payload : Bytes) (encoding : Option EncodingHint)
      (timestamp : TimestampHint)
  | delete (key : Option Bytes) (timestamp : TimestampHint)
  | sample (view : Sample) (fallback : TimestampHint)
  | reply (config : ReplicationConfig) (reply : AlignmentReply) (value : Option RetrievedValue)
  | collectGarbage (now : UInt64) (lifespan : TimeRange.Duration)
  | digest (config : ReplicationConfig) (hotEraUpperBound : IntervalIdx)
  deriving DecidableEq

variable {β : Type} [StorageBackend β] [FingerprintHash]

def call (s : StorageState β) : Call → StorageState β
  | .put key payload encoding timestamp => (s.processPut key payload encoding timestamp).1
  | .delete key timestamp => (s.processDelete key timestamp).1
  | .sample view fallback => s.applySample view fallback
  | .reply config reply value => (s.processAlignmentReply config reply value).1
  | .collectGarbage now lifespan => s.collectGarbage now lifespan
  | .digest config hotEraUpperBound => (s.replicationDigest config hotEraUpperBound).1

def run (s : StorageState β) (calls : List Call) : StorageState β := calls.foldl call s

/-- A wildcard update: its key expression, its kind and its timestamp. -/
abbrev WildcardStamp := Bytes × SampleKind × TimestampHint

/-- The wildcard update that an event of a metadata reply has registered. -/
def deletedWildcard (event : EventMetadata) : Option WildcardStamp :=
  match event.action with
  | .wildcardDelete keyexpr => some (keyexpr, .del, event.timestamp)
  | _ => none

/-- The wildcard update that a retrieved event has registered. -/
def retrievedWildcard (event : EventMetadata) (value : Option RetrievedValue) :
    Option WildcardStamp :=
  match event.action, value with
  | .wildcardDelete keyexpr, _ => some (keyexpr, .del, event.timestamp)
  | .wildcardPut keyexpr, some _ => some (keyexpr, .put, event.timestamp)
  | _, _ => none

/-- The wildcard updates a call carries for registration. -/
def Call.wildcards : Call → List WildcardStamp
  | .sample view fallback =>
    if KeyexprMatch.isWild view.keyexpr then
      [(view.keyexpr, view.kind, view.timestamp.getD fallback)]
    else []
  | .reply _ (.eventsMetadata events) _ => events.filterMap deletedWildcard
  | .reply _ (.retrieval event) value => (retrievedWildcard event value).toList
  | _ => []

def Call.collects : Call → Bool
  | .collectGarbage _ _ => true
  | _ => false

/-- `P` is kept by gated writes and by the registrations that `R` admits. -/
structure Keeps (P : StorageState β → Prop) (R : WildcardStamp → Prop) : Prop where
  process : ∀ s key kind timestamp payload encoding, P s →
    P (s.process key kind timestamp payload encoding).1
  register : ∀ s keyexpr kind timestamp payload encoding, R (keyexpr, kind, timestamp) → P s →
    P (s.registerWildcardUpdate keyexpr kind timestamp payload encoding)

namespace Keeps

variable {P : StorageState β → Prop} {R : WildcardStamp → Prop} (h : Keeps P R)
include h

theorem applyOneWithOverride {s : StorageState β} (hs : P s) (stored : Option Bytes) (full : Bytes)
    (kind : SampleKind) (timestamp : TimestampHint) (payload : Bytes)
    (encoding : Option EncodingHint) :
    P (s.applyOneWithOverride stored full kind timestamp payload encoding).1 := by
  unfold StorageState.applyOneWithOverride
  dsimp only
  split
  · exact h.process _ _ _ _ _ _ hs
  · exact h.process _ _ _ _ _ _ hs

theorem applyEach (kind : SampleKind) (timestamp : TimestampHint) (payload : Bytes)
    (encoding : Option EncodingHint) (keys : List (Option Bytes × Bytes)) {s : StorageState β}
    (hs : P s) : P (StorageState.applyEach kind timestamp payload encoding s keys).1 := by
  induction keys generalizing s with
  | nil => exact hs
  | cons key keys ih =>
    exact ih (h.applyOneWithOverride hs key.1 key.2 kind timestamp payload encoding)

theorem materializeWildcard {s : StorageState β} (hs : P s) (keyexpr : Bytes) (kind : SampleKind)
    (timestamp : TimestampHint) (payload : Bytes) (encoding : Option EncodingHint)
    (hR : R (keyexpr, kind, timestamp)) :
    P (s.materializeWildcard keyexpr kind timestamp payload encoding).1 := by
  have hregistered := h.register s keyexpr kind timestamp payload encoding hR hs
  unfold StorageState.materializeWildcard
  dsimp only
  split
  · exact hregistered
  · exact h.applyEach _ _ _ _ _ hregistered

theorem applySample {s : StorageState β} (hs : P s) (view : Sample) (fallback : TimestampHint)
    (hR : ∀ w ∈ (Call.sample view fallback).wildcards, R w) : P (s.applySample view fallback) := by
  unfold StorageState.applySample StorageState.applySampleInner
  dsimp only
  by_cases hwild : KeyexprMatch.isWild view.keyexpr = true
  · rw [if_pos hwild]
    exact h.materializeWildcard hs _ _ _ _ _ (hR _ (by simp [Call.wildcards, hwild]))
  · rw [if_neg hwild]
    split
    · exact hs
    · exact h.applyOneWithOverride hs _ _ _ _ _ _

theorem applyAlignedConcrete {s : StorageState β} (hs : P s) (stored : Option Bytes)
    (kind : SampleKind) (timestamp : TimestampHint) (payload : Bytes)
    (encoding : Option EncodingHint) :
    P (s.applyAlignedConcrete stored kind timestamp payload encoding).1 := by
  unfold StorageState.applyAlignedConcrete
  split
  · exact h.applyOneWithOverride hs _ _ _ _ _ _
  · exact h.process _ _ _ _ _ _ hs

theorem processEventsMetadata (events : List EventMetadata) {s : StorageState β} (hs : P s)
    (hR : ∀ w ∈ events.filterMap deletedWildcard, R w) :
    P (StorageState.processEventsMetadata s events).1 := by
  induction events generalizing s with
  | nil => exact hs
  | cons event events ih =>
    have hrest : ∀ w ∈ events.filterMap deletedWildcard, R w := by
      intro w hw
      obtain ⟨e, he, hew⟩ := List.mem_filterMap.mp hw
      exact hR w (List.mem_filterMap.mpr ⟨e, List.mem_cons_of_mem _ he, hew⟩)
    unfold StorageState.processEventsMetadata
    split_ifs
    · exact ih hs hrest
    · split
      · exact ih hs hrest
      · exact ih hs hrest
      · exact ih (h.applyAlignedConcrete hs _ _ _ _ _) hrest
      · next keyexpr haction =>
        refine ih (h.materializeWildcard hs _ _ _ _ _ (hR _ ?_)) hrest
        exact List.mem_filterMap.mpr ⟨event, List.mem_cons_self, by simp [deletedWildcard, haction]⟩

theorem processRetrieval {s : StorageState β} (hs : P s) (event : EventMetadata)
    (value : Option RetrievedValue) (hR : ∀ w ∈ (retrievedWildcard event value).toList, R w) :
    P (s.processRetrieval event value) := by
  unfold StorageState.processRetrieval
  split_ifs
  · rcases haction : event.action with _ | _ | keyexpr | keyexpr <;> rcases value with _ | value
    · exact hs
    · exact h.applyAlignedConcrete hs _ _ _ _ _
    · exact h.applyAlignedConcrete hs _ _ _ _ _
    · exact h.applyAlignedConcrete hs _ _ _ _ _
    · exact hs
    all_goals
      exact h.materializeWildcard hs _ _ _ _ _ (hR _ (by simp [retrievedWildcard, haction]))
  · exact hs

theorem processAlignmentReply {s : StorageState β} (hs : P s) (config : ReplicationConfig)
    (reply : AlignmentReply) (value : Option RetrievedValue)
    (hR : ∀ w ∈ (Call.reply config reply value).wildcards, R w) :
    P (s.processAlignmentReply config reply value).1 := by
  cases reply with
  | discovery => exact hs
  | intervals => exact hs
  | subIntervals => exact hs
  | eventsMetadata events => exact h.processEventsMetadata events hs hR
  | retrieval event => exact h.processRetrieval hs event value hR

theorem call {s : StorageState β} (hs : P s)
    (hcollect : ∀ now lifespan, P (s.collectGarbage now lifespan))
    (hdigest : ∀ config bound, P (s.replicationDigest config bound).1) (c : Call)
    (hR : ∀ w ∈ c.wildcards, R w) : P (StorageCalls.call s c) := by
  cases c with
  | put key payload encoding timestamp =>
    exact h.process s key .put timestamp payload encoding hs
  | delete key timestamp => exact h.process s key .del timestamp [] none hs
  | sample view fallback => exact h.applySample hs view fallback hR
  | reply config reply value => exact h.processAlignmentReply hs config reply value hR
  | collectGarbage now lifespan => exact hcollect now lifespan
  | digest config bound => exact hdigest config bound

end Keeps

/-- What a gated write can leave: nothing new, a changed backend alone, or the backend and the
record together. -/
theorem process_cases (s : StorageState β) (key : Option Bytes) (kind : SampleKind)
    (timestamp : TimestampHint) (payload : Bytes) (encoding : Option EncodingHint) :
    (s.process key kind timestamp payload encoding).1 = s ∨
      ∃ backend, (s.process key kind timestamp payload encoding).1 = { s with backend } ∨
        (s.process key kind timestamp payload encoding).1 =
          StorageState.recordLatest { s with backend } key timestamp kind := by
  have hwrite : ∀ w : β → β × StorageWriteResult,
      (s.processWrite key timestamp kind w).1 = s ∨
        ∃ backend, (s.processWrite key timestamp kind w).1 = { s with backend } ∨
          (s.processWrite key timestamp kind w).1 =
            StorageState.recordLatest { s with backend } key timestamp kind := by
    intro w
    unfold StorageState.processWrite
    split_ifs with hgate hlatest
    · exact .inl rfl
    · rcases w s.backend with ⟨backend, e | result⟩
      · exact .inr ⟨backend, .inl rfl⟩
      · exact .inr ⟨backend, .inr rfl⟩
    · rcases w s.backend with ⟨backend, e | result⟩
      · exact .inr ⟨backend, .inl rfl⟩
      · exact .inr ⟨backend, .inl rfl⟩
  cases kind with
  | put => exact hwrite fun backend => StorageBackend.put backend key payload encoding timestamp
  | del => exact hwrite fun backend => StorageBackend.delete backend key timestamp

theorem process_rest (s : StorageState β) (key : Option Bytes) (kind : SampleKind)
    (timestamp : TimestampHint) (payload : Bytes) (encoding : Option EncodingHint) :
    (s.process key kind timestamp payload encoding).1.wildcardPuts = s.wildcardPuts ∧
      (s.process key kind timestamp payload encoding).1.wildcardDeletes = s.wildcardDeletes ∧
      (s.process key kind timestamp payload encoding).1.stripPrefix = s.stripPrefix := by
  rcases process_cases s key kind timestamp payload encoding with hs | ⟨backend, hs | hs⟩ <;>
    rw [hs] <;> exact ⟨rfl, rfl, rfl⟩

end WatchingZenoh.StorageCalls
