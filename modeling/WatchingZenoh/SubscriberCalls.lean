import Mathlib
import WatchingZenoh.Library.Steps
import WatchingZenoh.SubscriberIngest

/-! The calls of an advanced subscriber, seen from one source: a call leaves it alone but for its query
count, or flushes it, or brings it a sample. -/

namespace WatchingZenoh.Subscriber

open Std (ExtTreeMap)
open State

variable {α : Type} {silent : Bool} {s s' : State α} {key other : Key}

theorem source_setSource (s : State α) (key : Key) (state : SourceState α) (other : Key) :
    (s.setSource key state).source other = if key = other then state else s.source other := by
  simp only [State.source, setSource, ExtTreeMap.getElem?_insert, Std.LawfulEqOrd.compare_eq_iff_eq]
  split_ifs <;> rfl

theorem source_of_getElem? {state : SourceState α} (h : s.sequenced[key]? = some state) :
    s.source key = state := by rw [State.source, h]; rfl

theorem source_congr (h : s'.sequenced = s.sequenced) (key : Key) : s'.source key = s.source key := by
  rw [State.source, State.source, h]

/-- What waits for its timestamp has no number. -/
def Unsequenced (state : TimestampedState α) : Prop :=
  ∀ (time : UInt64) (sample : Sample α), state.pendingSamples[time]? = some sample →
    sample.sequenced = none

structure Sane (s : State α) : Prop where
  wellFormed : ∀ key, WellFormed key (s.source key)
  unsequenced : ∀ (zid : Bytes) (state : TimestampedState α), s.timestamped[zid]? = some state →
    Unsequenced state

theorem wellFormed_new (key : Key) : WellFormed key ({} : SourceState α) := ⟨by simp, by simp, by simp⟩

inductive Touched (silent : Bool) (s : State α) (call : Call α) (key : Key) (acts : List Act)
    (s' : State α) : Prop
  | quiet (hacts : acts = []) (hlast : (s'.source key).lastDelivered = (s.source key).lastDelivered)
    (hpending : (s'.source key).pendingSamples = (s.source key).pendingSamples)
    (hidle : s'.globalPendingQueries = 0 → (s'.source key).pendingQueries = 0 →
      s.globalPendingQueries = 0 ∧ (s.source key).pendingQueries = 0)
    (hcall : ∀ sample live source sn, call = .ingest sample live →
      sample.sequenced = some (source, sn) → source.key ≠ key)
  | flushed (hfollows : Follows silent (s.source key).lastDelivered acts (s'.source key).lastDelivered)
    (hpending : (s'.source key).pendingSamples = ∅)
    (hall : ∀ x ∈ (s.source key).pendingSamples, x ∈ delivers acts ∨ Passed (s.source key) x)
    (hcall : ∀ sample live source sn, call = .ingest sample live →
      sample.sequenced = some (source, sn) → source.key ≠ key)
  | taken {sample : Sample α} {live : Bool} {source : EntityGlobalId} {sn : UInt32}
    {events : List (Event α)} {state : SourceState α} (hcall : call = .ingest sample live)
    (hsequenced : sample.sequenced = some (source, sn)) (hkey : source.key = key)
    (hacts : acts = actsOn key events)
    (htaken : Taken key silent s.retransmission (decide (s.globalPendingQueries ≠ 0)) (s.source key) sn
      events state)
    (hlast : (s'.source key).lastDelivered = state.lastDelivered)
    (hpending : (s'.source key).pendingSamples = state.pendingSamples)
    (hglobal : s'.globalPendingQueries = s.globalPendingQueries)
    (hqueries : (s'.source key).pendingQueries = 0 → state.pendingQueries = 0 ∧
      (s.globalPendingQueries = 0 → live = true → s.retransmission = true → state.pendingSamples = ∅))

/-- The calls that a host makes: a recovered sample comes while a query is open, every query is finished
once, and numbers stay below the greatest. -/
def Allowed (s : State α) : Call α → Prop
  | .ingest sample live => ∀ source sn, sample.sequenced = some (source, sn) →
    sn.toNat < 2 ^ 32 - 1 ∧ (live = false →
      s.globalPendingQueries ≠ 0 ∨ ∃ key, (s.source key).pendingQueries ≠ 0)
  | .finishRecovery key => (s.source key).pendingQueries ≠ 0
  | .finishHistory => s.globalPendingQueries ≠ 0
  | _ => True

def Bounded : Call α → Prop
  | .ingest sample _ => ∀ source sn, sample.sequenced = some (source, sn) → sn.toNat < 2 ^ 32 - 1
  | _ => True

theorem Allowed.bounded {call : Call α} (h : Allowed s call) : Bounded call := by
  cases call with
  | ingest sample live => exact fun source sn hseq => (h source sn hseq).1
  | _ => trivial

/-- A buffer that spills after a hole has an oldest sample that may be delivered. -/
def SpillsWell (silent : Bool) (s : State α) : Call α → Prop
  | .ingest sample _ => ∀ source sn last x, sample.sequenced = some (source, sn) →
    s.retransmission = true → (s.source source.key).lastDelivered = some last →
    last.toNat + 1 < sn.toNat →
    s.maxHistoryDepth ≤ (buffer (s.source source.key) sn sample).pendingSamples.size →
    Oldest (s.source source.key) sn x → Admits silent (some last) x
  | _ => True

/-- A call that leaves the machine sane, with what it does at every source. -/
structure Handled (silent : Bool) (s : State α) (call : Call α) (output : Output α) (s' : State α) :
    Prop where
  sane : Sane s'
  retransmission : s'.retransmission = s.retransmission
  maxHistoryDepth : s'.maxHistoryDepth = s.maxHistoryDepth
  touched : ∀ key, Touched silent s call key (actsOn key output.events) s'

theorem Handled.idle (h : Sane s) {call : Call α} {output : Output α}
    (hcall : ∀ sample live source sn, call = .ingest sample live →
      sample.sequenced ≠ some (source, sn))
    (hsequenced : s'.sequenced = s.sequenced)
    (hunsequenced : ∀ (zid : Bytes) (state : TimestampedState α), s'.timestamped[zid]? = some state →
      Unsequenced state)
    (hretransmission : s'.retransmission = s.retransmission)
    (hdepth : s'.maxHistoryDepth = s.maxHistoryDepth)
    (hglobal : s.globalPendingQueries ≤ s'.globalPendingQueries ∨ s'.globalPendingQueries ≠ 0)
    (hacts : ∀ key, actsOn key output.events = []) : Handled silent s call output s' where
  sane := ⟨fun key => source_congr hsequenced key ▸ h.wellFormed key, hunsequenced⟩
  retransmission := hretransmission
  maxHistoryDepth := hdepth
  touched key := by
    have hsource := source_congr hsequenced key
    refine .quiet (hacts key) (by rw [hsource]) (by rw [hsource]) (fun hzero hq => ?_)
      fun sample live source sn hc hs => absurd hs (hcall sample live source sn hc)
    rw [hsource] at hq
    exact ⟨by omega, hq⟩

theorem Handled.opened (h : Sane s) {call : Call α} {output : Output α} {state : SourceState α}
    (hcall : ∀ sample live, call ≠ .ingest sample live)
    (hstate : state = s.source key ∨ state = openQuery (s.source key))
    (hevents : output.events = []) : Handled silent s call output (s.setSource key state) where
  sane := by
    refine ⟨fun other => ?_, h.unsequenced⟩
    rw [source_setSource]
    split_ifs with heq
    · subst heq
      rcases hstate with rfl | rfl
      · exact h.wellFormed key
      · exact ⟨(h.wellFormed key).named, (h.wellFormed key).pending_lt, (h.wellFormed key).last_lt⟩
    · exact h.wellFormed other
  retransmission := rfl
  maxHistoryDepth := rfl
  touched other := by
    have hcall : ∀ sample live source sn, call = .ingest sample live →
        sample.sequenced = some (source, sn) → source.key ≠ other :=
      fun sample live _ _ hc => absurd hc (hcall sample live)
    rw [hevents]
    by_cases heq : key = other
    · subst heq
      refine .quiet rfl ?_ ?_ (fun hzero hq => ⟨hzero, ?_⟩) hcall <;>
        rw [source_setSource, if_pos rfl] at * <;> rcases hstate with rfl | rfl
      · rfl
      · rfl
      · rfl
      · rfl
      · exact hq
      · exact absurd hq (Nat.succ_ne_zero _)
    · refine .quiet rfl ?_ ?_ (fun hzero hq => ⟨hzero, ?_⟩) hcall <;>
        rw [source_setSource, if_neg heq] at *
      exact hq

theorem actsOn_unsequenced {sample : Sample α} (h : sample.sequenced = none) (key : Key) :
    actsOn key [.sample sample] = [] := by
  simp [actsOn, actOn, h]

theorem flushTimestamped_spec (zid : Bytes) {state : TimestampedState α} (h : Unsequenced state) :
    Unsequenced (flushTimestamped zid state).1 ∧
      ∀ key, actsOn key (flushTimestamped zid state).2 = [] := by
  unfold flushTimestamped
  split_ifs with hidle
  · exact ⟨h, fun _ => rfl⟩
  refine ⟨fun time sample hsample => by simp at hsample, fun key => ?_⟩
  refine List.foldlRecOn (motive := fun s : Option Timestamp.TimestampHint × List (Event α) =>
    actsOn key s.2 = []) _ _ rfl fun s hs p hp => ?_
  obtain ⟨time, sample⟩ := p
  have hnone := h time sample (ExtTreeMap.mem_toList_iff_getElem?_eq_some.mp hp)
  dsimp only
  split_ifs
  · rw [actsOn_append, hs, actsOn_unsequenced hnone key]
    rfl
  · exact hs

theorem unsequenced_insert (h : Sane s) (zid : Bytes) {state : TimestampedState α}
    (hstate : Unsequenced state) (other : Bytes) (state' : TimestampedState α)
    (hsome : (s.timestamped.insert zid state)[other]? = some state') : Unsequenced state' := by
  rw [ExtTreeMap.getElem?_insert] at hsome
  split_ifs at hsome
  · cases hsome
    exact hstate
  · exact h.unsequenced other state' hsome

theorem unsequenced_getD (h : Sane s) (zid : Bytes) : Unsequenced (s.timestamped[zid]?.getD {}) := by
  rcases hstate : s.timestamped[zid]? with _ | state
  · intro time sample hsample
    simp at hsample
  · exact h.unsequenced zid state hstate

theorem Handled.timestamped (h : Sane s) {call : Call α} {output : Output α} (zid : Bytes)
    {state : TimestampedState α} (hcall : ∀ sample live source sn, call = .ingest sample live →
      sample.sequenced ≠ some (source, sn)) (hstate : Unsequenced state)
    (hacts : ∀ key, actsOn key output.events = []) :
    Handled silent s call output { s with timestamped := s.timestamped.insert zid state } :=
  .idle h hcall rfl (unsequenced_insert h zid hstate) rfl rfl (.inl le_rfl) hacts

theorem handled_deliverUnsequenced (h : Sane s) {sample : Sample α} (hsample : sample.sequenced = none)
    (live : Bool) :
    Handled silent s (.ingest sample live) (s.deliverUnsequenced sample).2
      (s.deliverUnsequenced sample).1 := by
  have hcall : ∀ sample' live' source sn, Call.ingest sample live = .ingest sample' live' →
      sample'.sequenced ≠ some (source, sn) := by
    intro sample' live' source sn heq
    cases heq
    simp [hsample]
  have hstamped : ∀ (zid : Bytes) {state : TimestampedState α} {output : Output α}, Unsequenced state →
      (∀ key, actsOn key output.events = []) → Handled silent s (.ingest sample live) output
        { s with timestamped := s.timestamped.insert zid state } :=
    fun zid _ _ hstate hacts => .timestamped h zid hcall hstate hacts
  unfold State.deliverUnsequenced
  split
  · exact .idle h hcall rfl h.unsequenced rfl rfl (.inl le_rfl) (actsOn_unsequenced hsample)
  next ts _ =>
    have hold := unsequenced_getD h ts.zid
    set state : TimestampedState α := s.timestamped[ts.zid]?.getD {}
    have hbuffered : Unsequenced
        { state with pendingSamples := state.pendingSamples.insertIfNew ts.time sample } := by
      intro time other hother
      rw [ExtTreeMap.getElem?_insertIfNew] at hother
      split_ifs at hother
      · cases hother
        exact hsample
      · exact hold time other hother
    dsimp only
    split_ifs
    · exact hstamped ts.zid hold fun _ => rfl
    · obtain ⟨hflushed, hacts⟩ := flushTimestamped_spec ts.zid hbuffered
      exact hstamped ts.zid hflushed hacts
    · exact hstamped ts.zid hbuffered fun _ => rfl
    · exact hstamped ts.zid hold (actsOn_unsequenced hsample)

end WatchingZenoh.Subscriber
