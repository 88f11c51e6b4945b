import Mathlib
import WatchingZenoh.SubscriberCalls

/-! Every allowed call of an advanced subscriber returns, and what it does at each source. Most calls
concern one source and leave the others alone; the flush that ends a global query goes over all of them.
-/

namespace WatchingZenoh.Subscriber

open Std (ExtTreeMap)
open State

variable {α : Type} {silent : Bool} {s s' : State α} {key other : Key}

theorem wellFormed_openQuery {state : SourceState α} (h : WellFormed key state) :
    WellFormed key (openQuery state) := ⟨h.named, h.pending_lt, h.last_lt⟩

theorem handled_ingestSequenced (h : Sane s) {sample : Sample α} {live : Bool}
    {source : EntityGlobalId} {sn : UInt32} (hsample : sample.sequenced = some (source, sn))
    (hsn : sn.toNat < 2 ^ 32 - 1) (hspill : SpillsWell silent s (.ingest sample live)) :
    Handled silent s (.ingest sample live) (s.ingestSequenced source sn sample live).2
      (s.ingestSequenced source sn sample live).1 := by
  obtain ⟨state, events, heq, htaken⟩ := exists_ingestAtSource silent s.retransmission
    (decide (s.globalPendingQueries ≠ 0)) s.maxHistoryDepth (h.wellFormed source.key) rfl
    ⟨source, hsample, rfl⟩ hsn fun last x hr hlast hjump hsize => hspill source sn last x hsample hr
      hlast hjump hsize
  -- the source ends as the sample left it, or with a query opened on top
  have hset : ∀ (state' : SourceState α) (requests : List RecoveryRequest),
      (state' = state ∨ state' = openQuery state) →
      (state'.pendingQueries = 0 → state.pendingQueries = 0 ∧ (s.globalPendingQueries = 0 →
        live = true → s.retransmission = true → state.pendingSamples = ∅)) →
      Handled silent s (.ingest sample live) { events, requests } (s.setSource source.key state') := by
    intro state' requests hstate' hqueries
    have hwf : WellFormed source.key state' := by
      rcases hstate' with rfl | rfl
      · exact htaken.wellFormed
      · exact wellFormed_openQuery htaken.wellFormed
    have hsame : state'.lastDelivered = state.lastDelivered ∧
        state'.pendingSamples = state.pendingSamples := by
      rcases hstate' with rfl | rfl <;> exact ⟨rfl, rfl⟩
    refine ⟨⟨fun other => ?_, h.unsequenced⟩, rfl, rfl, fun other => ?_⟩
    · rw [source_setSource]
      split_ifs with heq
      · exact heq ▸ hwf
      · exact h.wellFormed other
    by_cases hother : source.key = other
    · subst hother
      have hsource : (s.setSource source.key state').source source.key = state' := by
        rw [source_setSource, if_pos rfl]
      exact .taken rfl hsample rfl rfl htaken (by rw [hsource, hsame.1]) (by rw [hsource, hsame.2]) rfl
        (by rw [hsource]; exact hqueries)
    · have hsource : (s.setSource source.key state').source other = s.source other := by
        rw [source_setSource, if_neg hother]
      refine .quiet (htaken.others other hother) (by rw [hsource]) (by rw [hsource])
        (fun hzero hq => ⟨hzero, by rwa [hsource] at hq⟩) fun sample' live' source' sn' hc hs => ?_
      cases hc
      rw [hsample] at hs
      cases hs
      exact hother
  simp only [ingestSequenced, heq]
  split_ifs with hfirst hopen
  · refine hset state [] (.inl rfl) fun hq => ⟨hq, fun hzero => ?_⟩
    simp [hzero] at hfirst
  · exact hset (openQuery state) _ (.inr rfl) fun hq => absurd hq (Nat.succ_ne_zero _)
  · refine hset state [] (.inl rfl) fun hq => ⟨hq, fun _ hlive hr => ?_⟩
    by_contra hne
    have hnonempty : state.pendingSamples.isEmpty = false :=
      Bool.eq_false_iff.mpr fun hempty => hne (ExtTreeMap.isEmpty_iff.mp hempty)
    exact hopen (by simp [hlive, hr, hq, hnonempty])

theorem handled_handleHeartbeat (h : Sane s) (zid : Bytes) (eid hbSn : UInt32) :
    Handled silent s (.handleHeartbeat zid eid hbSn) (s.handleHeartbeat zid eid hbSn).2
      (s.handleHeartbeat zid eid hbSn).1 := by
  have hcall : ∀ sample live, Call.handleHeartbeat (α := α) zid eid hbSn ≠ .ingest sample live := by
    intro sample live heq
    cases heq
  simp only [handleHeartbeat]
  split_ifs
  · exact .idle h (fun sample live _ _ heq => absurd heq (hcall sample live)) rfl h.unsequenced rfl rfl
      (.inl le_rfl) fun _ => rfl
  · exact .opened h hcall (.inl rfl) rfl
  · exact .opened h hcall (.inr rfl) rfl
  · exact .opened h hcall (.inl rfl) rfl

theorem handled_handleLatePublisher (h : Sane s) (zid : Bytes) (eid : UInt32) :
    Handled silent s (.handleLatePublisher zid eid) (s.handleLatePublisher zid eid).2
      (s.handleLatePublisher zid eid).1 := by
  have hcall : ∀ sample live, Call.handleLatePublisher (α := α) zid eid ≠ .ingest sample live := by
    intro sample live heq
    cases heq
  simp only [handleLatePublisher]
  split_ifs
  · exact .opened h hcall (.inr rfl) rfl
  · exact .opened h hcall (.inl rfl) rfl

theorem handled_handleLateTimestampedPublisher (h : Sane s) (zid : Bytes) :
    Handled silent s (.handleLateTimestampedPublisher zid) (s.handleLateTimestampedPublisher zid).2
      (s.handleLateTimestampedPublisher zid).1 := by
  have hold := unsequenced_getD h zid
  simp only [handleLateTimestampedPublisher]
  split_ifs
  · exact .timestamped h zid (fun _ _ _ _ heq => by cases heq) hold fun _ => rfl
  · exact .timestamped h zid (fun _ _ _ _ heq => by cases heq) hold fun _ => rfl

theorem handled_finishTimestampedRecovery (h : Sane s) (zid : Bytes) :
    Handled silent s (.finishTimestampedRecovery zid) (s.finishTimestampedRecovery zid).2
      (s.finishTimestampedRecovery zid).1 := by
  simp only [finishTimestampedRecovery]
  split
  · exact .idle h (fun _ _ _ _ heq => by cases heq) rfl h.unsequenced rfl rfl (.inl le_rfl) fun _ => rfl
  next state hstate =>
    have hold : Unsequenced { state with pendingQueries := state.pendingQueries - 1 } :=
      h.unsequenced zid state hstate
    split_ifs
    · obtain ⟨hflushed, hacts⟩ := flushTimestamped_spec zid hold
      exact .timestamped h zid (fun _ _ _ _ heq => by cases heq) hflushed hacts
    · exact .timestamped h zid (fun _ _ _ _ heq => by cases heq) hold fun _ => rfl

theorem exists_finishRecovery (h : Sane s) (key : Key) :
    ∃ s' output, s.finishRecovery key = some (s', output) ∧
      Handled silent s (.finishRecovery key) output s' := by
  rcases hstate : s.sequenced[key]? with _ | state
  · exact ⟨s, {}, by simp only [finishRecovery, hstate], .idle h (fun _ _ _ _ heq => by cases heq) rfl
      h.unsequenced rfl rfl (.inl le_rfl) fun _ => rfl⟩
  have hsource := source_of_getElem? hstate
  have hwf : WellFormed key (closeQuery state) :=
    ⟨(hsource ▸ h.wellFormed key).named, (hsource ▸ h.wellFormed key).pending_lt,
      (hsource ▸ h.wellFormed key).last_lt⟩
  have hcall : ∀ (other : Key) (sample : Sample α) (live : Bool) (source : EntityGlobalId) (sn : UInt32),
      Call.finishRecovery key = .ingest sample live → sample.sequenced = some (source, sn) →
        source.key ≠ other := by
    intro other sample live source sn heq
    cases heq
  have hothers : ∀ (state' : SourceState α) (events : List (Event α)),
      (∀ other, key ≠ other → actsOn other events = []) → ∀ other, key ≠ other →
        Touched silent s (.finishRecovery key) other (actsOn other events) (s.setSource key state') := by
    intro state' events hacts other hne
    have hsame : (s.setSource key state').source other = s.source other := by
      rw [source_setSource, if_neg hne]
    exact .quiet (hacts other hne) (by rw [hsame]) (by rw [hsame])
      (fun hzero hq => ⟨hzero, by rwa [hsame] at hq⟩) (hcall other)
  have hsane : ∀ state', WellFormed key state' → Sane (s.setSource key state') := by
    intro state' hwf'
    refine ⟨fun other => ?_, h.unsequenced⟩
    rw [source_setSource]
    split_ifs with heq
    · exact heq ▸ hwf'
    · exact h.wellFormed other
  have hset : ∀ state' : SourceState α, (s.setSource key state').source key = state' := by
    intro state'
    rw [source_setSource, if_pos rfl]
  by_cases hlast : (closeQuery state).pendingQueries = 0 ∧ s.globalPendingQueries = 0
  · obtain ⟨state', events, heq, hworked, hempty, hall⟩ := exists_flushSequenced silent hwf
    refine ⟨s.setSource key state', { events }, by simp [finishRecovery, hstate, hlast, heq],
      ⟨hsane state' hworked.wellFormed, rfl, rfl, fun other => ?_⟩⟩
    by_cases hne : key = other
    · subst hne
      exact .flushed (by rw [hset, hsource]; exact hworked.follows) (by rw [hset, hempty])
        (by rw [hsource]; exact hall) (hcall key)
    · exact hothers state' events hworked.others other hne
  · have hguard : (decide ((closeQuery state).pendingQueries = 0) &&
        decide (s.globalPendingQueries = 0)) = false := by
      rw [← Bool.decide_and, decide_eq_false_iff_not]
      exact hlast
    refine ⟨s.setSource key (closeQuery state), {}, ?_, ⟨hsane _ hwf, rfl, rfl, fun other => ?_⟩⟩
    · simp only [finishRecovery, hstate, hguard, Bool.false_eq_true, ↓reduceIte]
    by_cases hne : key = other
    · subst hne
      refine .quiet rfl (by rw [hset, hsource]; rfl) (by rw [hset, hsource]; rfl) (fun hzero hq => ?_)
        (hcall key)
      rw [hset] at hq
      exact absurd ⟨hq, hzero⟩ hlast
    · exact hothers (closeQuery state) [] (fun _ _ => rfl) other hne

/-- Nothing but the query counts of sources changes, and none falls to zero. -/
structure Asked (s s' : State α) : Prop where
  sane : Sane s'
  retransmission : s'.retransmission = s.retransmission
  maxHistoryDepth : s'.maxHistoryDepth = s.maxHistoryDepth
  global : s'.globalPendingQueries = s.globalPendingQueries
  last : ∀ key, (s'.source key).lastDelivered = (s.source key).lastDelivered
  pending : ∀ key, (s'.source key).pendingSamples = (s.source key).pendingSamples
  queries : ∀ key, (s'.source key).pendingQueries = 0 → (s.source key).pendingQueries = 0

theorem Asked.askSource (h : Asked s s') (requests : List RecoveryRequest) (key : Key) :
    Asked s (State.askSource (s', requests) key).1 := by
  rcases hstate : s'.sequenced[key]? with _ | state
  · simpa [State.askSource, hstate] using h
  by_cases hq : state.pendingQueries = 0
  swap
  · simpa [State.askSource, hstate, hq] using h
  have hsource := source_of_getElem? hstate
  simp only [State.askSource, hstate, hq, ↓reduceIte]
  refine ⟨⟨fun other => ?_, h.sane.unsequenced⟩, h.retransmission, h.maxHistoryDepth, h.global,
    fun other => ?_, fun other => ?_, fun other => ?_⟩ <;> rw [source_setSource] <;> split_ifs with heq
  · exact heq ▸ wellFormed_openQuery (hsource ▸ h.sane.wellFormed key)
  · exact h.sane.wellFormed other
  · subst heq
    rw [← h.last key, hsource]
    rfl
  · exact h.last other
  · subst heq
    rw [← h.pending key, hsource]
    rfl
  · exact h.pending other
  · exact fun hzero => absurd hzero (Nat.succ_ne_zero _)
  · exact h.queries other

theorem handled_periodicRequests [IterOrder] (h : Sane s) :
    Handled silent s .periodicRequests s.periodicRequests.2 s.periodicRequests.1 := by
  rw [periodicRequests]
  split_ifs
  · exact .idle h (fun _ _ _ _ heq => by cases heq) rfl h.unsequenced rfl rfl (.inl le_rfl) fun _ => rfl
  have hasked : Asked s ((IterOrder.order s.sequenced.keys).foldl State.askSource (s, [])).1 :=
    List.foldlRecOn (motive := fun r : State α × List RecoveryRequest => Asked s r.1) _ _
      ⟨h, rfl, rfl, rfl, fun _ => rfl, fun _ => rfl, fun _ => id⟩ fun r hr key _ => hr.askSource r.2 key
  refine ⟨hasked.sane, hasked.retransmission, hasked.maxHistoryDepth, fun key => ?_⟩
  exact .quiet rfl (hasked.last key) (hasked.pending key)
    (fun hzero hq => ⟨hasked.global ▸ hzero, hasked.queries key hq⟩) fun _ _ _ _ heq => by cases heq

def Emptied (silent : Bool) (s : State α) (key : Key) (acts : List Act) (s' : State α) : Prop :=
  Follows silent (s.source key).lastDelivered acts (s'.source key).lastDelivered ∧
    (s'.source key).pendingSamples = ∅ ∧
    ∀ x ∈ (s.source key).pendingSamples, x ∈ delivers acts ∨ Passed (s.source key) x

/-- Of the sources that were visited, those without an open query have been flushed. -/
structure Visited (silent : Bool) (s : State α) (past : List Key) (s' : State α)
    (events : List (Event α)) : Prop where
  sane : Sane s'
  retransmission : s'.retransmission = s.retransmission
  maxHistoryDepth : s'.maxHistoryDepth = s.maxHistoryDepth
  global : s'.globalPendingQueries = s.globalPendingQueries
  queries : ∀ key, (s'.source key).pendingQueries = (s.source key).pendingQueries
  sources : ∀ key, (s'.source key = s.source key ∧ actsOn key events = []) ∨
    Emptied silent s key (actsOn key events) s'
  flushed : ∀ key ∈ past, (s.source key).pendingQueries = 0 →
    Emptied silent s key (actsOn key events) s'

theorem Visited.flushSource {past : List Key} {events : List (Event α)}
    (h : Visited silent s past s' events) (key : Key) :
    ∃ s'' events', State.flushSource (s', events) key = some (s'', events') ∧
      Visited silent s (past ++ [key]) s'' events' := by
  have hpast : ∀ {other : Key}, other ∈ past ++ [key] → other ∈ past ∨ other = key := by simp
  -- a source that is not there, or has a query open, is passed over
  have hskip : State.flushSource (s', events) key = some (s', events) →
      ((s.source key).pendingQueries = 0 → Emptied silent s key (actsOn key events) s') → _ :=
    fun heq hkey => (⟨s', events, heq, h.sane, h.retransmission, h.maxHistoryDepth, h.global, h.queries,
      h.sources, fun other hother => (hpast hother).elim (h.flushed other) fun hother => hother ▸ hkey⟩ :
      ∃ s'' events', State.flushSource (s', events) key = some (s'', events') ∧
        Visited silent s (past ++ [key]) s'' events')
  rcases hstate : s'.sequenced[key]? with _ | state
  · refine hskip (by simp [State.flushSource, hstate]) fun _ => ?_
    rcases h.sources key with ⟨hsame, hacts⟩ | hemptied
    · have hnew : s'.source key = {} := by rw [State.source, hstate]; rfl
      refine ⟨by rw [hacts, hsame]; exact .nil _, by rw [hnew], fun x hx => ?_⟩
      rw [← hsame, hnew] at hx
      exact absurd hx ExtTreeMap.not_mem_empty
    · exact hemptied
  have hsource := source_of_getElem? hstate
  by_cases hq : state.pendingQueries = 0
  swap
  · refine hskip (by simp [State.flushSource, hstate, hq]) fun hzero => ?_
    rw [← h.queries, hsource] at hzero
    exact absurd hzero hq
  have hwf : WellFormed key state := hsource ▸ h.sane.wellFormed key
  obtain ⟨state', more, heq, hworked, hempty, hall⟩ := exists_flushSequenced silent hwf
  have hset : ∀ other, (s'.setSource key state').source other =
      if key = other then state' else s'.source other := source_setSource s' key state'
  have hkey : Emptied silent s key (actsOn key (events ++ more)) (s'.setSource key state') := by
    refine ⟨?_, by rw [hset, if_pos rfl, hempty], fun x hx => ?_⟩
    · rw [hset, if_pos rfl, actsOn_append]
      rcases h.sources key with ⟨hsame, hacts⟩ | hemptied
      · rw [hacts, List.nil_append, ← hsame, hsource]
        exact hworked.follows
      · refine hemptied.1.append ?_
        rw [hsource]
        exact hworked.follows
    · rw [actsOn_append, delivers_append, List.mem_append]
      rcases h.sources key with ⟨hsame, hacts⟩ | hemptied
      · rw [← hsame, hsource] at hx ⊢
        exact (hall x hx).imp_left .inr
      · exact (hemptied.2.2 x hx).imp_left .inl
  have hother : ∀ other, key ≠ other → actsOn other (events ++ more) = actsOn other events ∧
      (s'.setSource key state').source other = s'.source other := by
    intro other hne
    rw [actsOn_append, hworked.others other hne, List.append_nil, hset, if_neg hne]
    exact ⟨rfl, rfl⟩
  refine ⟨s'.setSource key state', events ++ more, by simp [State.flushSource, hstate, hq, heq],
    ⟨⟨fun other => ?_, h.sane.unsequenced⟩, h.retransmission, h.maxHistoryDepth, h.global,
      fun other => ?_, fun other => ?_, fun other hmem hzero => ?_⟩⟩ <;> by_cases hne : key = other
  · rw [hset, if_pos hne]
    exact hne ▸ hworked.wellFormed
  · rw [hset, if_neg hne]
    exact h.sane.wellFormed other
  · rw [hset, if_pos hne, hworked.queries, ← hsource, h.queries, hne]
  · rw [(hother other hne).2, h.queries]
  · exact .inr (hne ▸ hkey)
  · rw [(hother other hne).1, (hother other hne).2, Emptied, (hother other hne).2]
    exact h.sources other
  · exact hne ▸ hkey
  · rw [(hother other hne).1, Emptied, (hother other hne).2]
    exact h.flushed other ((hpast hmem).resolve_right (Ne.symm hne)) hzero

end WatchingZenoh.Subscriber
