import Mathlib
import WatchingZenoh.SubscriberComplete

/-! An advanced subscriber without history: no global query is ever open and no buffer comes to its
depth. Then a source that has delivered nothing buffers nothing, nor does a machine that does not ask
for retransmissions, and every number is accounted for. -/

namespace WatchingZenoh.Subscriber

open Std (ExtTreeMap)
open State

variable {α : Type} {s s' : State α} {key : Key}

/-- The calls of a machine without history: a recovered sample comes while a query of its source is
open. -/
def Recovering (s : State α) : Call α → Prop
  | .ingest sample live => ∀ source sn, sample.sequenced = some (source, sn) →
    sn.toNat < 2 ^ 32 - 1 ∧ (live = false → (s.source source.key).pendingQueries ≠ 0)
  | .openGlobalHistorySlot => False
  | .finishHistory => False
  | _ => True

theorem Recovering.bounded {call : Call α} (h : Recovering s call) : Bounded call := by
  cases call with
  | ingest sample live => exact fun source sn hseq => (h source sn hseq).1
  | _ => trivial

/-- What waits at a source was put there after a hole, to be filled. -/
structure Bare (depth : ℕ) (s : State α) : Prop where
  sane : Sane s
  global : s.globalPendingQueries = 0
  depth : s.maxHistoryDepth = depth
  first : ∀ key, (s.source key).lastDelivered = none → (s.source key).pendingSamples = ∅
  off : s.retransmission = false → ∀ key, (s.source key).pendingSamples = ∅

theorem size_lt {state : SourceState α} (h : WellFormed key state) :
    state.pendingSamples.size < 2 ^ 32 := by
  have hnodup : (state.pendingSamples.keys.map UInt32.toNat).Nodup :=
    ExtTreeMap.nodup_keys.map fun a b hab => UInt32.toNat_inj.mp hab
  have hsub : state.pendingSamples.keys.map UInt32.toNat ⊆ List.range (2 ^ 32 - 1) := by
    intro x hx
    obtain ⟨sn, hsn, rfl⟩ := List.mem_map.mp hx
    exact List.mem_range.mpr (h.pending_lt sn (ExtTreeMap.mem_keys.mp hsn))
  have hle := (List.subperm_of_subset hnodup hsub).length_le
  rw [List.length_map, ExtTreeMap.length_keys, List.length_range] at hle
  omega

theorem Bare.lossless {depth : ℕ} (hdepth : 2 ^ 32 ≤ depth) {call : Call α} (h : Bare depth s)
    (hcall : Recovering s call) : Lossless s call := by
  cases call with
  | ingest sample live =>
    intro source sn hseq state
    obtain ⟨hsn, hrecovered⟩ := hcall source sn hseq
    refine ⟨fun hnone _ x hx => ?_, fun _ hoff x hx => ?_, fun _ _ => ⟨?_, fun hlive => ?_⟩⟩
    · rw [h.first source.key hnone] at hx
      exact absurd hx ExtTreeMap.not_mem_empty
    · rw [h.off hoff source.key] at hx
      exact absurd hx ExtTreeMap.not_mem_empty
    · have hsize := size_lt ((h.sane.wellFormed source.key).buffer ⟨source, hseq, rfl⟩ hsn)
      rw [h.depth]
      exact hsize.trans_le hdepth
    · exact .inr (hrecovered hlive)
  | _ => trivial

theorem global_askSource (r : State α × List RecoveryRequest) (key : Key) :
    (askSource r key).1.globalPendingQueries = r.1.globalPendingQueries := by
  obtain ⟨s, requests⟩ := r
  simp only [askSource]
  split
  · rfl
  · split_ifs <;> rfl

theorem global_deliverUnsequenced (sample : Sample α) :
    (s.deliverUnsequenced sample).1.globalPendingQueries = s.globalPendingQueries := by
  unfold deliverUnsequenced
  split
  · rfl
  · dsimp only
    split_ifs <;> rfl

theorem global_ingestSequenced (source : EntityGlobalId) (sn : UInt32) (sample : Sample α) (live : Bool) :
    (s.ingestSequenced source sn sample live).1.globalPendingQueries = s.globalPendingQueries := by
  unfold ingestSequenced
  dsimp only
  split_ifs <;> rfl

theorem global_finishRecovery {key : Key} {output : Output α}
    (h : s.finishRecovery key = some (s', output)) :
    s'.globalPendingQueries = s.globalPendingQueries := by
  unfold finishRecovery at h
  split at h
  · cases h
    rfl
  · dsimp only at h
    split_ifs at h
    · obtain ⟨r, -, hr⟩ := Option.bind_eq_some_iff.mp h
      cases hr
      rfl
    · cases h
      rfl

theorem global_step [IterOrder] {call : Call α} {output : Output α} (hcall : Recovering s call)
    (hstep : step s call = some (s', output)) :
    s'.globalPendingQueries = s.globalPendingQueries := by
  cases call with
  | ingest sample live =>
    rw [← show (s.ingest sample live).1 = s' from congrArg Prod.fst (Option.some.inj hstep)]
    unfold State.ingest
    split
    · exact global_ingestSequenced _ _ _ _
    · exact global_deliverUnsequenced _
  | handleHeartbeat zid eid hbSn =>
    rw [← show (s.handleHeartbeat zid eid hbSn).1 = s' from congrArg Prod.fst (Option.some.inj hstep)]
    unfold handleHeartbeat
    split_ifs
    · rfl
    · dsimp only
      split_ifs <;> rfl
  | periodicRequests =>
    rw [← show (s.periodicRequests).1 = s' from congrArg Prod.fst (Option.some.inj hstep)]
    unfold periodicRequests
    split_ifs
    · rfl
    · exact List.foldlRecOn (motive := fun r : State α × List RecoveryRequest =>
        r.1.globalPendingQueries = s.globalPendingQueries) _ _ rfl
        fun r hr key _ => (global_askSource r key).trans hr
  | handleLatePublisher zid eid =>
    rw [← show (s.handleLatePublisher zid eid).1 = s' from congrArg Prod.fst (Option.some.inj hstep)]
    unfold handleLatePublisher
    dsimp only
    split_ifs <;> rfl
  | handleLateTimestampedPublisher zid =>
    rw [← show (s.handleLateTimestampedPublisher zid).1 = s' from congrArg Prod.fst (Option.some.inj hstep)]
    unfold handleLateTimestampedPublisher
    dsimp only
    split_ifs <;> rfl
  | openGlobalHistorySlot => exact hcall.elim
  | finishRecovery key => exact global_finishRecovery hstep
  | finishTimestampedRecovery zid =>
    rw [← show (s.finishTimestampedRecovery zid).1 = s' from congrArg Prod.fst (Option.some.inj hstep)]
    unfold finishTimestampedRecovery
    split
    · rfl
    · dsimp only
      split_ifs <;> rfl
  | finishHistory => exact hcall.elim

theorem Bare.waited {depth : ℕ} {call : Call α} {output : Output α} (h : Bare depth s)
    (hhandled : Handled false s call output s') (key : Key) :
    ∀ x ∈ (s'.source key).pendingSamples, x ∈ (s.source key).pendingSamples ∨
      ((s.source key).lastDelivered ≠ none ∧ s.retransmission = true) := by
  intro x hx
  cases hhandled.touched key with
  | quiet _ _ hpending => exact .inl (hpending ▸ hx)
  | flushed _ hpending =>
    rw [hpending] at hx
    exact absurd hx ExtTreeMap.not_mem_empty
  | taken _ _ _ _ htaken _ hpending =>
    rw [hpending] at hx
    rcases htaken.buffered x hx with hmem | ⟨-, ⟨-, hopen⟩ | ⟨⟨last, hlast, -⟩, hr⟩⟩
    · exact .inl hmem
    · exact absurd h.global (of_decide_eq_true hopen)
    · exact .inr ⟨by simp [hlast], hr⟩

theorem Bare.step [IterOrder] {depth : ℕ} (hdepth : 2 ^ 32 ≤ depth) {call : Call α}
    {output : Output α} (h : Bare depth s) (hcall : Recovering s call)
    (hstep : Subscriber.step s call = some (s', output)) : Bare depth s' := by
  obtain ⟨s'', output', heq, hhandled⟩ :=
    exists_step h.sane hcall.bounded (h.lossless hdepth hcall).spillsWell
  rw [hstep] at heq
  cases heq
  have hempty : ∀ key, ((s.source key).pendingSamples = ∅) →
      ¬((s.source key).lastDelivered ≠ none ∧ s.retransmission = true) →
      (s'.source key).pendingSamples = ∅ := by
    intro key hold hnot
    refine ExtTreeMap.eq_empty_iff_forall_not_mem.mpr fun x hx => ?_
    rcases h.waited hhandled key x hx with hmem | hhole
    · rw [hold] at hmem
      exact ExtTreeMap.not_mem_empty hmem
    · exact hnot hhole
  refine ⟨hhandled.sane, (global_step hcall hstep).trans h.global,
    hhandled.maxHistoryDepth.trans h.depth, fun key hnone => ?_, fun hoff key => ?_⟩
  · have hfirst : (s.source key).lastDelivered = none := by
      have hlast := (hhandled.touched key).follows.last_eq
      rw [hnone] at hlast
      rcases hold : (s.source key).lastDelivered with _ | last
      · rfl
      · rw [hold] at hlast
        rcases hget : (delivers (actsOn key output.events)).getLast? with _ | sn <;>
          simp [hget] at hlast
    exact hempty key (h.first key hfirst) fun hhole => hhole.1 hfirst
  · rw [hhandled.retransmission] at hoff
    refine hempty key (h.off hoff key) fun hhole => ?_
    rw [hoff] at hhole
    cases hhole.2

/-- What is reported between two deliveries in a row: the hole between them, once, if there is one. -/
def Between (x y : UInt32) (between : List Act) : Prop :=
  x < y ∧ (y.toNat = x.toNat + 1 → between = []) ∧
    (x.toNat + 1 < y.toNat → between = [.miss (y - x - 1)])

theorem Follows.between {last' : Option UInt32} {between after : List Act} {x y : UInt32}
    (h : Follows false (some x) (between ++ .deliver y :: after) last')
    (hbetween : ∀ act ∈ between, act.delivered? = none) : Between x y between := by
  match between, h with
  | [], .deliver hadmits _ =>
    rcases hadmits x rfl with hnext | ⟨hsilent, -⟩
    · exact ⟨UInt32.lt_iff_toNat_lt.mpr (by omega), fun _ => rfl, fun hjump => by omega⟩
    · cases hsilent
  | .deliver sn :: _, _ => simp [Act.delivered?] at hbetween
  | [.miss nb], .missed hpos hnb _ =>
    have hlt : x < y := UInt32.lt_iff_toNat_lt.mpr (by omega)
    have hnb' : nb = y - x - 1 := by
      rw [← UInt32.toNat_inj, toNat_gap hlt]
      omega
    exact ⟨hlt, fun hnext => by omega, fun _ => by rw [hnb']⟩
  | .miss _ :: .deliver sn :: _, _ => simp [Act.delivered?] at hbetween

theorem bare_start (retransmission : Bool) (depth : ℕ) :
    Bare depth (start retransmission 0 depth : State α) where
  sane := sane_start retransmission 0 depth
  global := rfl
  depth := rfl
  first key _ := by simp [State.source, start, withHistory, withRetransmission, State.new]
  off _ key := by simp [State.source, start, withHistory, withRetransmission, State.new]

/-- Every number of a source is accounted for: what is delivered rises, each hole is reported once as it
is passed over, what comes and is not late is delivered or waits, and nothing waits without a query. -/
theorem accounts_run [IterOrder] (retransmission : Bool) {depth : ℕ} (hdepth : 2 ^ 32 ≤ depth)
    (calls : List (Call α))
    (hcalls : Steps.Along step Recovering (start retransmission 0 depth) calls) :
    ∃ s' outputs, Steps.run step (start retransmission 0 depth) calls = some (s', outputs) ∧
      ∀ key, (deliveredOf key outputs).Pairwise (· < ·) ∧
        (∀ before between after x y,
          actsOf key outputs = before ++ .deliver x :: between ++ .deliver y :: after →
          (∀ act ∈ between, act.delivered? = none) → Between x y between) ∧
        (∀ sn, Ingested (start retransmission 0 depth) calls key sn →
          sn ∈ deliveredOf key outputs ∨ sn ∈ (s'.source key).pendingSamples) ∧
        ((s'.source key).pendingQueries = 0 → (s'.source key).pendingSamples = ∅) := by
  have hstart := bare_start (α := α) retransmission depth
  have hlossless : Steps.Along step Lossless (start retransmission 0 depth) calls :=
    hcalls.strengthen (fun _ _ h hcall => h.lossless hdepth hcall)
      (fun _ _ _ _ h hcall hstep => h.step hdepth hcall hstep) hstart
  obtain ⟨s', outputs, hrun, haccounted⟩ := accounted_run hstart.sane calls
    (accounted_start retransmission 0 depth) (hcalls.imp fun _ _ h => h.bounded) hlossless
  have hbare : Bare depth s' := by
    obtain ⟨last, answers, hrun', hbare⟩ := Steps.run_keeps_along (fun s call hs hcall => by
      obtain ⟨s', output, heq, -⟩ := exists_step hs.sane hcall.bounded
        (hs.lossless hdepth hcall).spillsWell
      exact ⟨s', output, heq, hs.step hdepth hcall heq⟩) calls hstart hcalls
    rw [hrun] at hrun'
    cases hrun'
    exact hbare
  refine ⟨s', outputs, hrun, fun key => ?_⟩
  obtain ⟨hkey, hheld⟩ := haccounted key
  refine ⟨hkey.follows.rises.1, ?_, fun sn hin => hheld sn (.inr hin), hkey.idle hbare.global⟩
  intro before between after x y heq hbetween
  have htail : Follows false (some x) (between ++ .deliver y :: after) _ :=
    hkey.follows.after (show _ = before ++ .deliver x :: (between ++ .deliver y :: after) by simp [heq])
  exact htail.between hbetween

/-- A test for the calls of a machine without history. -/
def recovering? (s : State α) : Call α → Bool
  | .ingest sample live => sample.sequenced.all fun (source, sn) =>
    sn.toNat < 2 ^ 32 - 1 && (live || (s.source source.key).pendingQueries ≠ 0)
  | .openGlobalHistorySlot | .finishHistory => false
  | _ => true

theorem recovering_of_recovering? (s : State α) (call : Call α) (h : recovering? s call = true) :
    Recovering s call := by
  cases call with
  | ingest sample live =>
    intro source sn hseq
    simp only [recovering?, hseq, Option.all_some, Bool.and_eq_true, Bool.or_eq_true,
      decide_eq_true_eq] at h
    exact ⟨h.1, fun hlive => h.2.resolve_left (by simp [hlive])⟩
  | openGlobalHistorySlot => cases h
  | finishHistory => cases h
  | _ => trivial

/-- One hole is filled in time, and one is not. -/
def patchyCalls : List (Call Unit) :=
  [.ingest (sampleAt 3) true, .ingest (sampleAt 5) true, .ingest (sampleAt 4) false,
    .finishRecovery ([7], 1), .ingest (sampleAt 9) true, .finishRecovery ([7], 1)]

theorem accounts_run_patchy :
    letI := keyOrder
    Steps.Along step Recovering (start true 0 (2 ^ 64 - 1)) patchyCalls ∧
      ∃ s' outputs, Steps.run step (start true 0 (2 ^ 64 - 1)) patchyCalls = some (s', outputs) ∧
        actsOf ([7], 1) outputs = [.deliver 3, .deliver 4, .deliver 5, .miss 3, .deliver 9] ∧
        (deliveredOf ([7], 1) outputs).Pairwise (· < ·) ∧
        ((s'.source ([7], 1)).pendingQueries = 0 → (s'.source ([7], 1)).pendingSamples = ∅) := by
  let _ := keyOrder
  have hcalls : Steps.Along step Recovering (start true 0 (2 ^ 64 - 1)) patchyCalls :=
    Steps.along_of_check recovering_of_recovering? (by decide +kernel)
  have hacts : (Steps.run step (start true 0 (2 ^ 64 - 1)) patchyCalls).any (fun r =>
      decide (actsOf ([7], 1) r.2 = [.deliver 3, .deliver 4, .deliver 5, .miss 3, .deliver 9])) =
        true := by decide +kernel
  obtain ⟨s', outputs, hrun, haccounts⟩ := accounts_run true (by norm_num) patchyCalls hcalls
  rw [hrun] at hacts
  exact ⟨hcalls, s', outputs, hrun, of_decide_eq_true hacts, (haccounts _).1, (haccounts _).2.2.2⟩

end WatchingZenoh.Subscriber
