import WatchingZenoh.KeyexprPrefixRoundTrip
import WatchingZenoh.StorageLaid

/-! Captured samples and alignment replies taken apart into the updates that they lay over the keys, one
after another: a reply of event metadata is as many updates as it names events that are missing. A
property that every single update keeps holds along every run. -/

namespace WatchingZenoh.StorageSteps

open Timestamp Backend StorageReplication StorageAligner StorageReplica StorageCalls StorageHeld
open StorageOverride StorageLaid

/-- One update. A concrete one comes with the full key that its override is looked up for, if the stored
key has one. -/
inductive Step where
  | concrete (stored full : Option Bytes) (kind : SampleKind) (timestamp : TimestampHint)
      (payload : Bytes) (encoding : Option EncodingHint)
  | wildcard (wildcardKe : Bytes) (kind : SampleKind) (timestamp : TimestampHint)
      (payload : Bytes) (encoding : Option EncodingHint)
  deriving DecidableEq, Repr

def Step.registration : Step → Option WildcardStamp
  | wildcard wildcardKe kind timestamp _ _ => some (wildcardKe, kind, timestamp)
  | concrete _ _ _ _ _ _ => none

/-- The full key of a concrete update is the one its stored key restores to. -/
def Step.Mounted (stripPrefix : Option Bytes) : Step → Prop
  | concrete stored full _ _ _ _ => KeyexprPrefix.restorePrefix stripPrefix stored = full
  | wildcard _ _ _ _ _ => True

variable [FingerprintHash]

def step (s : Memory) : Step → Memory
  | .concrete stored (some full) kind timestamp payload encoding =>
    (s.applyOneWithOverride stored full kind timestamp payload encoding).1
  | .concrete stored none kind timestamp payload encoding =>
    (s.process stored kind timestamp payload encoding).1
  | .wildcard wildcardKe kind timestamp payload encoding =>
    (s.materializeWildcard wildcardKe kind timestamp payload encoding).1

section Steps

omit [FingerprintHash] in
def sampleSteps (s : Memory) (view : Sample) (fallback : TimestampHint) : List Step :=
  let timestamp := view.timestamp.getD fallback
  if KeyexprMatch.isWild view.keyexpr then
    [.wildcard view.keyexpr view.kind timestamp view.payload view.encoding]
  else
    match s.storedKeyFor view.keyexpr with
    | none => []
    | some stored =>
      [.concrete stored (some view.keyexpr) view.kind timestamp view.payload view.encoding]

/-- Whether an event is missing is asked in the state that the events before it leave. -/
def metadataSteps : Memory → List EventMetadata → List Step
  | _, [] => []
  | s, event :: rest =>
    if !s.isMissing event then metadataSteps s rest
    else
      match event.action with
      | .put | .wildcardPut _ => metadataSteps s rest
      | .delete =>
        let laying := .concrete event.key (s.fullKeyFor event.key) .del event.timestamp [] none
        laying :: metadataSteps (step s laying) rest
      | .wildcardDelete keyexpr =>
        let laying := .wildcard keyexpr .del event.timestamp [] none
        laying :: metadataSteps (step s laying) rest

omit [FingerprintHash] in
def retrievalSteps (s : Memory) (event : EventMetadata) (value : Option RetrievedValue) :
    List Step :=
  if s.isMissing event then
    match event.action, value with
    | .put, some value =>
      [.concrete event.key (s.fullKeyFor event.key) .put event.timestamp value.payload
        value.encoding]
    | .delete, _ => [.concrete event.key (s.fullKeyFor event.key) .del event.timestamp [] none]
    | .wildcardPut keyexpr, some value =>
      [.wildcard keyexpr .put event.timestamp value.payload value.encoding]
    | .wildcardDelete keyexpr, _ => [.wildcard keyexpr .del event.timestamp [] none]
    | .put, none | .wildcardPut _, none => []
  else []

def steps (s : Memory) : Call → List Step
  | .sample view fallback => sampleSteps s view fallback
  | .reply _ (.eventsMetadata events) _ => metadataSteps s events
  | .reply _ (.retrieval event) value => retrievalSteps s event value
  | _ => []

/-- A captured sample or an alignment reply. -/
def received : Call → Bool
  | .sample _ _ | .reply _ _ _ => true
  | _ => false

theorem applyAlignedConcrete_eq_step (s : Memory) (stored : Option Bytes) (kind : SampleKind)
    (timestamp : TimestampHint) (payload : Bytes) (encoding : Option EncodingHint) :
    (s.applyAlignedConcrete stored kind timestamp payload encoding).1 =
      step s (.concrete stored (s.fullKeyFor stored) kind timestamp payload encoding) := by
  unfold StorageState.applyAlignedConcrete
  rcases s.fullKeyFor stored with _ | full <;> rfl

theorem applySample_eq_steps (s : Memory) (view : Sample) (fallback : TimestampHint) :
    s.applySample view fallback = (sampleSteps s view fallback).foldl step s := by
  unfold StorageState.applySample StorageState.applySampleInner sampleSteps
  dsimp only
  split_ifs
  · rfl
  · rcases s.storedKeyFor view.keyexpr with _ | stored <;> rfl

theorem processEventsMetadata_eq_steps (events : List EventMetadata) (s : Memory) :
    (s.processEventsMetadata events).1 = (metadataSteps s events).foldl step s := by
  induction events generalizing s with
  | nil => rfl
  | cons event events ih =>
    unfold StorageState.processEventsMetadata metadataSteps
    split_ifs
    · exact ih s
    · rcases event.action with _ | _ | keyexpr | keyexpr <;> dsimp only
      · exact ih s
      · rw [applyAlignedConcrete_eq_step]
        exact ih _
      · exact ih s
      · exact ih _

theorem processRetrieval_eq_steps (s : Memory) (event : EventMetadata)
    (value : Option RetrievedValue) :
    s.processRetrieval event value = (retrievalSteps s event value).foldl step s := by
  unfold StorageState.processRetrieval retrievalSteps
  split_ifs
  · rcases event.action with _ | _ | keyexpr | keyexpr <;> rcases value with _ | value <;>
      simp only [applyAlignedConcrete_eq_step] <;> rfl
  · rfl

theorem call_eq_steps (s : Memory) {c : Call} (hc : received c = true) :
    call s c = (steps s c).foldl step s := by
  cases c with
  | sample view fallback => exact applySample_eq_steps s view fallback
  | reply config reply value =>
    cases reply with
    | discovery => rfl
    | intervals => rfl
    | subIntervals => rfl
    | eventsMetadata events => exact processEventsMetadata_eq_steps events s
    | retrieval event => exact processRetrieval_eq_steps s event value
  | put | delete | collectGarbage | digest => simp [received] at hc

/-- The updates of a run, each call taken apart in the state it meets. -/
def runSteps : Memory → List Call → List Step
  | _, [] => []
  | s, c :: calls => steps s c ++ runSteps (call s c) calls

theorem run_eq_steps {calls : List Call} (hcalls : ∀ c ∈ calls, received c = true) (s : Memory) :
    run s calls = (runSteps s calls).foldl step s := by
  induction calls generalizing s with
  | nil => rfl
  | cons c calls ih =>
    rw [runSteps, List.foldl_append, ← call_eq_steps s (hcalls c (by simp))]
    exact ih (fun d hd => hcalls d (by simp [hd])) (call s c)

end Steps

section Step

variable {s : Memory}

theorem stripPrefix_step (s : Memory) (st : Step) : (step s st).stripPrefix = s.stripPrefix := by
  rcases st with ⟨stored, _ | full, kind, timestamp, payload, encoding⟩ |
    ⟨wildcardKe, kind, timestamp, payload, encoding⟩
  · exact (process_rest s stored kind timestamp payload encoding).2.2
  · exact (@applyOne_rest _ s stored full kind timestamp payload encoding).2.2
  · exact (materialize_rest wildcardKe kind timestamp payload encoding s).2.2

theorem coherent_step (h : Coherent s) (st : Step) : Coherent (step s st) := by
  rcases st with ⟨stored, _ | full, kind, timestamp, payload, encoding⟩ |
    ⟨wildcardKe, kind, timestamp, payload, encoding⟩
  · exact coherent_process stored kind timestamp payload encoding h
  · exact coherent_applyOne stored full kind timestamp payload encoding h
  · exact coherent_materialize wildcardKe kind timestamp payload encoding h

theorem step_concrete_rest (s : Memory) (stored full : Option Bytes) (kind : SampleKind)
    (timestamp : TimestampHint) (payload : Bytes) (encoding : Option EncodingHint) :
    (step s (.concrete stored full kind timestamp payload encoding)).wildcardPuts = s.wildcardPuts ∧
      (step s (.concrete stored full kind timestamp payload encoding)).wildcardDeletes =
        s.wildcardDeletes := by
  rcases full with _ | full
  · have hrest := process_rest s stored kind timestamp payload encoding
    exact ⟨hrest.1, hrest.2.1⟩
  · have hrest := @applyOne_rest _ s stored full kind timestamp payload encoding
    exact ⟨hrest.1, hrest.2.1⟩

theorem kinds_step (h : Kinds s) (st : Step) : Kinds (step s st) := by
  rcases st with ⟨stored, full, kind, timestamp, payload, encoding⟩ |
    ⟨wildcardKe, kind, timestamp, payload, encoding⟩
  · obtain ⟨hputs, hdeletes⟩ := step_concrete_rest s stored full kind timestamp payload encoding
    exact kinds_congr h hputs hdeletes
  · obtain ⟨hputs, hdeletes, -⟩ := materialize_rest wildcardKe kind timestamp payload encoding s
    exact kinds_congr (kinds_register wildcardKe kind timestamp payload encoding h) hputs hdeletes

end Step

section Mounted

/-- A sample of a concrete key that the storage restores from what it stores: with a prefix, a key
without `$`, which no key expression has outside of `$*`. -/
def keyed (stripPrefix : Option Bytes) : Call → Bool
  | .sample view _ =>
    KeyexprMatch.isWild view.keyexpr || stripPrefix.isNone || !view.keyexpr.contains dollar
  | _ => true

omit [FingerprintHash] in
theorem mounted_sampleSteps {s : Memory} {view : Sample} {fallback : TimestampHint}
    (hkeyed : keyed s.stripPrefix (.sample view fallback) = true) :
    ∀ st ∈ sampleSteps s view fallback, st.Mounted s.stripPrefix := by
  intro st hst
  unfold sampleSteps at hst
  dsimp only at hst
  split_ifs at hst with hwild
  · rw [List.mem_singleton.mp hst]
    trivial
  · rcases hstored : s.storedKeyFor view.keyexpr with _ | stored <;> simp only [hstored] at hst
    · simp at hst
    · rw [List.mem_singleton.mp hst, Step.Mounted]
      have hstrip : KeyexprPrefix.stripPrefix s.stripPrefix view.keyexpr = .ok (.ok stored) := by
        unfold StorageState.storedKeyFor at hstored
        split at hstored
        · next key hkey => rw [hkey, Option.some.inj hstored]
        · simp at hstored
      rcases hpre : s.stripPrefix with _ | pre
      · rw [hpre] at hstrip
        obtain rfl : some view.keyexpr = stored := Except.ok.inj (Except.ok.inj hstrip)
        rfl
      · rw [← hpre]
        refine KeyexprPrefixRoundTrip.restorePrefix_of_plain (fun hin => hwild ?_) ?_ hstrip
        · exact List.any_eq_true.mpr ⟨star, hin, by simp⟩
        · simpa [keyed, hwild, hpre] using hkeyed

theorem mounted_metadataSteps (events : List EventMetadata) (s : Memory) :
    ∀ st ∈ metadataSteps s events, st.Mounted s.stripPrefix := by
  induction events generalizing s with
  | nil => simp [metadataSteps]
  | cons event events ih =>
    intro st hst
    unfold metadataSteps at hst
    split_ifs at hst
    · exact ih s st hst
    · rcases haction : event.action with _ | _ | keyexpr | keyexpr <;> simp only [haction] at hst
      · exact ih s st hst
      · rcases List.mem_cons.mp hst with rfl | hst
        · rfl
        · rw [← stripPrefix_step s]
          exact ih _ st hst
      · exact ih s st hst
      · rcases List.mem_cons.mp hst with rfl | hst
        · trivial
        · rw [← stripPrefix_step s]
          exact ih _ st hst

omit [FingerprintHash] in
theorem mounted_retrievalSteps (s : Memory) (event : EventMetadata)
    (value : Option RetrievedValue) :
    ∀ st ∈ retrievalSteps s event value, st.Mounted s.stripPrefix := by
  intro st hst
  unfold retrievalSteps at hst
  split_ifs at hst
  · rcases haction : event.action with _ | _ | keyexpr | keyexpr <;> rcases value with _ | value <;>
      simp only [haction, List.not_mem_nil, List.mem_singleton] at hst <;> rw [hst] <;>
      first | rfl | trivial
  · simp at hst

theorem mounted_steps {s : Memory} {c : Call} (hkeyed : keyed s.stripPrefix c = true) :
    ∀ st ∈ steps s c, st.Mounted s.stripPrefix := by
  unfold steps
  split
  · exact mounted_sampleSteps hkeyed
  · exact mounted_metadataSteps _ s
  · exact mounted_retrievalSteps s _ _
  · simp

theorem stripPrefix_foldl_step (sts : List Step) (s : Memory) :
    (sts.foldl step s).stripPrefix = s.stripPrefix := by
  induction sts generalizing s with
  | nil => rfl
  | cons st sts ih => exact (ih (step s st)).trans (stripPrefix_step s st)

theorem mounted_runSteps {calls : List Call} (hcalls : ∀ c ∈ calls, received c = true) {s : Memory}
    (hkeyed : ∀ c ∈ calls, keyed s.stripPrefix c = true) :
    ∀ st ∈ runSteps s calls, st.Mounted s.stripPrefix := by
  induction calls generalizing s with
  | nil => simp [runSteps]
  | cons c calls ih =>
    have hstrip : (call s c).stripPrefix = s.stripPrefix := by
      rw [call_eq_steps s (hcalls c (by simp)), stripPrefix_foldl_step]
    intro st hst
    rcases List.mem_append.mp hst with hst | hst
    · exact mounted_steps (hkeyed c (by simp)) st hst
    · rw [← hstrip]
      refine ih (fun d hd => hcalls d (by simp [hd])) (fun d hd => ?_) st hst
      rw [hstrip]
      exact hkeyed d (by simp [hd])

end Mounted

end WatchingZenoh.StorageSteps
