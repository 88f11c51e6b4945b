import Mathlib
import WatchingZenoh.SubscriberSteps

/-! Runs of an advanced subscriber. Every allowed call returns. The numbers delivered of a source rise
as long as no buffer that spills after a hole holds a number that has been passed. -/

namespace WatchingZenoh.Subscriber

open Std (ExtTreeMap)
open State

variable {α : Type} {silent : Bool} {s s' : State α} {key : Key}

theorem flushTimestampedSource_spec (h : Sane s) (events : List (Event α)) (zid : Bytes) :
    let r := flushTimestampedSource (s, events) zid
    Sane r.1 ∧ r.1.sequenced = s.sequenced ∧ r.1.retransmission = s.retransmission ∧
      r.1.maxHistoryDepth = s.maxHistoryDepth ∧ r.1.globalPendingQueries = s.globalPendingQueries ∧
      ∀ key, actsOn key r.2 = actsOn key events := by
  rcases hstate : s.timestamped[zid]? with _ | state
  · simpa [flushTimestampedSource, hstate] using h
  obtain ⟨hflushed, hacts⟩ := flushTimestamped_spec zid (h.unsequenced zid state hstate)
  simp only [flushTimestampedSource, hstate]
  refine ⟨⟨h.wellFormed, unsequenced_insert h zid hflushed⟩, trivial, trivial, trivial, trivial,
    fun key => ?_⟩
  rw [actsOn_append, hacts, List.append_nil]

theorem exists_finishHistory [IterOrder] (h : Sane s) :
    ∃ s' output, s.finishHistory = some (s', output) ∧ Handled silent s .finishHistory output s' := by
  set closed : State α := { s with globalPendingQueries := s.globalPendingQueries - 1 } with hclosed
  have hcall : ∀ (key : Key) (sample : Sample α) (live : Bool) (source : EntityGlobalId) (sn : UInt32),
      Call.finishHistory = .ingest sample live → sample.sequenced = some (source, sn) →
        source.key ≠ key := by
    intro key sample live source sn heq
    cases heq
  by_cases hopen : s.globalPendingQueries - 1 = 0
  swap
  · refine ⟨closed, {}, ?_, .idle h (fun _ _ _ _ heq => by cases heq) rfl h.unsequenced rfl rfl
      (.inr hopen) fun _ => rfl⟩
    rw [finishHistory, if_pos hopen]
  have hsane : Sane closed := ⟨h.wellFormed, h.unsequenced⟩
  obtain ⟨⟨mid, events⟩, hfold, hvisited⟩ := Steps.foldlM_keeps
    (f := flushSource) (P := fun past r => Visited silent closed past r.1 r.2)
    (IterOrder.order closed.sequenced.keys) (fun past r key _ hr => by
      obtain ⟨s'', events', heq, hvisited⟩ := hr.flushSource key
      exact ⟨(s'', events'), heq, hvisited⟩) [] (s := (closed, []))
    ⟨hsane, rfl, rfl, rfl, fun _ => rfl, fun _ => .inl ⟨rfl, rfl⟩, by simp⟩
  have hstamped := List.foldlRecOn (motive := fun r : State α × List (Event α) =>
      Sane r.1 ∧ r.1.sequenced = mid.sequenced ∧ r.1.retransmission = mid.retransmission ∧
      r.1.maxHistoryDepth = mid.maxHistoryDepth ∧
      r.1.globalPendingQueries = mid.globalPendingQueries ∧ ∀ key, actsOn key r.2 = actsOn key events)
    (IterOrder.order mid.timestamped.keys) flushTimestampedSource (b := (mid, events))
    ⟨hvisited.sane, rfl, rfl, rfl, rfl, fun _ => rfl⟩ (by
      intro r hr zid _
      obtain ⟨hsane', hseq, hr', hdepth, hglobal, hacts⟩ := hr
      obtain ⟨hsane'', hseq', hr'', hdepth', hglobal', hacts'⟩ :=
        flushTimestampedSource_spec hsane' r.2 zid
      exact ⟨hsane'', hseq'.trans hseq, hr''.trans hr', hdepth'.trans hdepth, hglobal'.trans hglobal,
        fun key => (hacts' key).trans (hacts key)⟩)
  set last := (IterOrder.order mid.timestamped.keys).foldl flushTimestampedSource (mid, events)
    with hlast
  obtain ⟨hsane', hseq, hr, hdepth, hglobal, hacts⟩ := hstamped
  refine ⟨last.1, { events := last.2 }, ?_, ⟨hsane', hr.trans hvisited.retransmission,
    hdepth.trans hvisited.maxHistoryDepth, fun key => ?_⟩⟩
  · rw [finishHistory, if_neg (not_not_intro hopen)]
    exact Option.bind_eq_some_iff.mpr ⟨(mid, events), hfold, rfl⟩
  have hsource : last.1.source key = mid.source key := source_congr hseq key
  have hemptied : Emptied silent closed key (actsOn key events) mid →
      Touched silent s .finishHistory key (actsOn key last.2) last.1 := by
    rintro ⟨hfollows, hempty, hall⟩
    rw [hacts]
    exact .flushed (hsource ▸ hfollows) (hsource ▸ hempty) hall (hcall key)
  rcases hvisited.sources key with ⟨hsame, hnone⟩ | hflushed
  swap
  · exact hemptied hflushed
  by_cases hq : (closed.source key).pendingQueries = 0
  · by_cases hmem : key ∈ closed.sequenced
    · refine hemptied (hvisited.flushed key ?_ hq)
      exact ((IterOrder.perm _).mem_iff).mpr (ExtTreeMap.mem_keys.mpr hmem)
    · have hnew : closed.source key = {} := by
        rw [State.source, ExtTreeMap.getElem?_eq_none hmem]
        rfl
      refine hemptied ⟨by rw [hnone, hsame]; exact .nil _, by rw [hsame, hnew], fun x hx => ?_⟩
      rw [hnew] at hx
      exact absurd hx ExtTreeMap.not_mem_empty
  · refine .quiet (by rw [hacts, hnone]) (by rw [hsource, hsame]; rfl) (by rw [hsource, hsame]; rfl)
      (fun _ hzero => absurd ?_ hq) (hcall key)
    rw [← hsame, ← hsource]
    exact hzero

theorem exists_step [IterOrder] (h : Sane s) {call : Call α} (hbounded : Bounded call)
    (hspill : SpillsWell silent s call) :
    ∃ s' output, step s call = some (s', output) ∧ Handled silent s call output s' := by
  cases call with
  | ingest sample live =>
    refine ⟨_, _, rfl, ?_⟩
    rcases hseq : sample.sequenced with _ | ⟨source, sn⟩
    · exact handled_deliverUnsequenced h hseq live
    · exact handled_ingestSequenced h hseq (hbounded source sn hseq) hspill
  | handleHeartbeat zid eid hbSn => exact ⟨_, _, rfl, handled_handleHeartbeat h zid eid hbSn⟩
  | periodicRequests => exact ⟨_, _, rfl, handled_periodicRequests h⟩
  | handleLatePublisher zid eid => exact ⟨_, _, rfl, handled_handleLatePublisher h zid eid⟩
  | handleLateTimestampedPublisher zid =>
    exact ⟨_, _, rfl, handled_handleLateTimestampedPublisher h zid⟩
  | openGlobalHistorySlot =>
    exact ⟨_, _, rfl, .idle h (fun _ _ _ _ heq => by cases heq) rfl h.unsequenced rfl rfl
      (.inl (Nat.le_succ _)) fun _ => rfl⟩
  | finishRecovery key => exact exists_finishRecovery h key
  | finishTimestampedRecovery zid => exact ⟨_, _, rfl, handled_finishTimestampedRecovery h zid⟩
  | finishHistory => exact exists_finishHistory h

/-- A machine that has seen nothing, with so many global queries open. -/
def start (retransmission : Bool) (globalPendingQueries maxHistoryDepth : ℕ) : State α :=
  (State.new.withRetransmission retransmission).withHistory globalPendingQueries maxHistoryDepth

theorem sane_start (retransmission : Bool) (n depth : ℕ) :
    Sane (start retransmission n depth : State α) :=
  ⟨fun key => by simpa [State.source, start, withHistory, withRetransmission, State.new] using
    wellFormed_new key, by simp [start, withHistory, withRetransmission, State.new]⟩

theorem Touched.follows {call : Call α} {acts : List Act} (h : Touched silent s call key acts s') :
    Follows silent (s.source key).lastDelivered acts (s'.source key).lastDelivered := by
  cases h with
  | quiet hacts hlast =>
    rw [hacts, hlast]
    exact .nil _
  | flushed hfollows => exact hfollows
  | taken _ _ _ hacts htaken hlast =>
    rw [hacts, hlast]
    exact htaken.follows

def actsOf (key : Key) (outputs : List (Output α)) : List Act :=
  actsOn key (outputs.flatMap Output.events)

def deliveredOf (key : Key) (outputs : List (Output α)) : List UInt32 := delivers (actsOf key outputs)

theorem actsOf_cons (key : Key) (output : Output α) (outputs : List (Output α)) :
    actsOf key (output :: outputs) = actsOn key output.events ++ actsOf key outputs := by
  rw [actsOf, List.flatMap_cons, actsOn_append]
  rfl

/-- No sample fills a buffer after a hole while the buffer holds a number that has been passed. -/
def Orderly (s : State α) : Call α → Prop
  | .ingest sample _ => ∀ source sn last, sample.sequenced = some (source, sn) →
    s.retransmission = true → (s.source source.key).lastDelivered = some last →
    last.toNat + 1 < sn.toNat →
    s.maxHistoryDepth ≤ (buffer (s.source source.key) sn sample).pendingSamples.size →
    ∀ x ∈ (s.source source.key).pendingSamples, last < x
  | _ => True

theorem Orderly.spillsWell {call : Call α} (h : Orderly s call) : SpillsWell true s call := by
  cases call with
  | ingest sample live =>
    rintro source sn last x hseq hr hlast hjump hsize ⟨hx | hx, -⟩ l hl
    · cases hl
      exact .inr ⟨rfl, UInt32.lt_iff_toNat_lt.mpr (by rw [hx]; omega)⟩
    · cases hl
      exact .inr ⟨rfl, h source sn last hseq hr hlast hjump hsize x hx⟩
  | _ => trivial

theorem follows_run [IterOrder] (h : Sane s) (calls : List (Call α))
    (hallowed : Steps.Along step Allowed s calls)
    (hspill : Steps.Along step (SpillsWell silent) s calls) :
    ∃ s' outputs, Steps.run step s calls = some (s', outputs) ∧ Sane s' ∧
      ∀ key, Follows silent (s.source key).lastDelivered (actsOf key outputs)
        (s'.source key).lastDelivered := by
  induction calls generalizing s with
  | nil => exact ⟨s, [], rfl, h, fun _ => .nil _⟩
  | cons call calls ih =>
    obtain ⟨mid, output, hstep, hhandled⟩ := exists_step h hallowed.1.bounded hspill.1
    obtain ⟨s', outputs, hrun, hsane, hfollows⟩ :=
      ih hhandled.sane (hallowed.2 mid output hstep) (hspill.2 mid output hstep)
    refine ⟨s', output :: outputs, Steps.run_cons hstep hrun, hsane, fun key => ?_⟩
    rw [actsOf_cons]
    exact (hhandled.touched key).follows.append (hfollows key)

/-- Every source is delivered in order. -/
theorem increasing_run [IterOrder] (retransmission : Bool) (n depth : ℕ) (calls : List (Call α))
    (hallowed : Steps.Along step Allowed (start retransmission n depth) calls)
    (horderly : Steps.Along step Orderly (start retransmission n depth) calls) :
    ∃ s' outputs, Steps.run step (start retransmission n depth) calls = some (s', outputs) ∧
      ∀ key, (deliveredOf key outputs).Pairwise (· < ·) := by
  obtain ⟨s', outputs, hrun, -, hfollows⟩ := follows_run (sane_start retransmission n depth) calls
    hallowed (horderly.imp fun _ _ h => h.spillsWell)
  exact ⟨s', outputs, hrun, fun key => (hfollows key).rises.1⟩

abbrev keyOrder : IterOrder := ⟨fun keys => keys, fun _ => .refl _⟩

def permitted (s : State α) : Call α → Bool
  | .ingest sample live => sample.sequenced.all fun (source, sn) => sn.toNat < 2 ^ 32 - 1 &&
    (live || s.globalPendingQueries ≠ 0 || (s.source source.key).pendingQueries ≠ 0)
  | .finishRecovery key => (s.source key).pendingQueries ≠ 0
  | .finishHistory => s.globalPendingQueries ≠ 0
  | _ => true

theorem allowed_of_permitted (s : State α) (call : Call α) (h : permitted s call = true) :
    Allowed s call := by
  cases call with
  | ingest sample live =>
    intro source sn hseq
    simp only [permitted, hseq, Option.all_some, Bool.and_eq_true, decide_eq_true_eq] at h
    refine ⟨h.1, fun hlive => ?_⟩
    simp only [hlive, Bool.false_or, Bool.or_eq_true, decide_eq_true_eq] at h
    exact h.2.imp_right fun hopen => ⟨source.key, hopen⟩
  | finishRecovery key => simpa only [permitted, Allowed, decide_eq_true_eq] using h
  | finishHistory => simpa only [permitted, Allowed, decide_eq_true_eq] using h
  | _ => trivial

/-- A test for orderly calls: nothing in the buffer has been passed. -/
def unpassed (s : State α) : Call α → Bool
  | .ingest sample _ => sample.sequenced.all fun (source, _) =>
    (s.source source.key).lastDelivered.all fun last =>
      (s.source source.key).pendingSamples.keys.all (last < ·)
  | _ => true

theorem orderly_of_unpassed (s : State α) (call : Call α) (h : unpassed s call = true) :
    Orderly s call := by
  cases call with
  | ingest sample live =>
    intro source sn last hseq _ hlast _ _ x hx
    simp only [unpassed, hseq, Option.all_some, hlast, List.all_eq_true, decide_eq_true_eq] at h
    exact h x (ExtTreeMap.mem_keys.mpr hx)
  | _ => trivial

def sampleAt (sn : UInt32) : Sample Unit :=
  { sourceInfo := some { zid := [7], zidLen := 1, eid := 1, sn }, timestamp := none, content := () }

/-- History comes after a live sample, and a hole is filled later. -/
def recoveringCalls : List (Call Unit) :=
  [.ingest (sampleAt 5) true, .ingest (sampleAt 3) false, .finishHistory, .ingest (sampleAt 7) true,
    .ingest (sampleAt 6) false, .finishRecovery ([7], 1)]

theorem increasing_run_recovering :
    letI := keyOrder
    Steps.Along step Allowed (start true 1 8) recoveringCalls ∧
      Steps.Along step Orderly (start true 1 8) recoveringCalls ∧
      ∃ s' outputs, Steps.run step (start true 1 8) recoveringCalls = some (s', outputs) ∧
        ∀ key, (deliveredOf key outputs).Pairwise (· < ·) := by
  let _ := keyOrder
  have hallowed : Steps.Along step Allowed (start true 1 8) recoveringCalls :=
    Steps.along_of_check allowed_of_permitted (by decide +kernel)
  have horderly : Steps.Along step Orderly (start true 1 8) recoveringCalls :=
    Steps.along_of_check orderly_of_unpassed (by decide +kernel)
  exact ⟨hallowed, horderly, increasing_run true 1 8 recoveringCalls hallowed horderly⟩

/-- The query of a late publisher outlasts the last global one. -/
def overtakingCalls : List (Call Unit) :=
  [.handleLatePublisher [7] 1, .ingest (sampleAt 5) true, .finishHistory, .ingest (sampleAt 7) true,
    .ingest (sampleAt 10) true]

/-- Its first sample after that goes out at once, past the buffered one, which a full buffer then
spills. -/
theorem increasing_run_overtaken :
    letI := keyOrder
    Steps.Along step Allowed (start true 1 2) overtakingCalls ∧
      ∃ s' outputs, Steps.run step (start true 1 2) overtakingCalls = some (s', outputs) ∧
        ¬(deliveredOf ([7], 1) outputs).Pairwise (· < ·) := by
  let _ := keyOrder
  have hrun : (Steps.run step (start true 1 2) overtakingCalls).any
      (fun r => decide (deliveredOf ([7], 1) r.2 = [7, 5])) = true := by decide +kernel
  obtain ⟨⟨s', outputs⟩, heq, hdelivered⟩ := (Option.any_eq_true _ _).mp hrun
  refine ⟨Steps.along_of_check allowed_of_permitted (by decide +kernel), s', outputs, heq, ?_⟩
  rw [of_decide_eq_true hdelivered]
  decide

end WatchingZenoh.Subscriber
