import Mathlib
import WatchingZenoh.SubscriberOrder

/-! An advanced subscriber loses nothing silently as long as no sample goes past a buffered one and no
buffer spills after a hole: once no query that may bring older samples is open, every sample that was
not late has been delivered, and the reports account for every hole. -/

namespace WatchingZenoh.Subscriber

open Std (ExtTreeMap)
open State

variable {α : Type} {s s' : State α} {key : Key}

/-- A sample passes no buffered one of a smaller number, and none that comes after a hole fills the
buffer or waits in it without a query. -/
def Lossless (s : State α) : Call α → Prop
  | .ingest sample live => ∀ source sn, sample.sequenced = some (source, sn) →
    let state := s.source source.key
    (state.lastDelivered = none → s.globalPendingQueries = 0 →
      ∀ x ∈ state.pendingSamples, sn.toNat ≤ x.toNat) ∧
    (Hole state sn → s.retransmission = false →
      ∀ x ∈ state.pendingSamples, Passed state x ∨ sn.toNat ≤ x.toNat) ∧
    (Hole state sn → s.retransmission = true →
      (buffer state sn sample).pendingSamples.size < s.maxHistoryDepth ∧
      (live = false → s.globalPendingQueries ≠ 0 ∨ state.pendingQueries ≠ 0))
  | _ => True

theorem Lossless.spillsWell {call : Call α} (h : Lossless s call) : SpillsWell false s call := by
  cases call with
  | ingest sample live =>
    intro source sn last x hseq hr hlast hjump hsize _
    have := ((h source sn hseq).2.2 ⟨last, hlast, hjump⟩ hr).1
    omega
  | _ => trivial

/-- What holds of a source after so many acts. -/
structure Accounted (s : State α) (key : Key) (acts : List Act) : Prop where
  follows : Follows false none acts (s.source key).lastDelivered
  passed : ∀ x ∈ (s.source key).pendingSamples, Passed (s.source key) x → x ∈ delivers acts
  idle : s.globalPendingQueries = 0 → (s.source key).pendingQueries = 0 →
    (s.source key).pendingSamples = ∅

def Held (s : State α) (key : Key) (acts : List Act) (sn : UInt32) : Prop :=
  sn ∈ delivers acts ∨ sn ∈ (s.source key).pendingSamples

/-- A call brings a sample of this number to its source, which has not passed it. -/
def Brings (s : State α) (key : Key) (sn : UInt32) (call : Call α) : Prop :=
  ∃ sample live source, call = .ingest sample live ∧ sample.sequenced = some (source, sn) ∧
    source.key = key ∧ ¬Passed (s.source key) sn

theorem Accounted.taken_passed {acts : List Act} {sample : Sample α} {live : Bool}
    {source : EntityGlobalId} {sn : UInt32} {events : List (Event α)} {state : SourceState α}
    (h : Accounted s key acts) (hlossless : Lossless s (.ingest sample live))
    (hseq : sample.sequenced = some (source, sn)) (hkey : source.key = key)
    (htaken : Taken key false s.retransmission (decide (s.globalPendingQueries ≠ 0)) (s.source key) sn
      events state) {x : UInt32} (hx : x ∈ state.pendingSamples) (hpassed : Passed state x) :
    x ∈ delivers (acts ++ actsOn key events) := by
  rw [delivers_append, List.mem_append]
  obtain ⟨hfirst, hoff, -⟩ := hlossless source sn hseq
  rw [hkey] at hfirst hoff
  have hbuffered := htaken.buffered x hx
  rcases htaken.passed x hx hpassed with hbefore | ⟨hle, hdelivered, hgoes⟩
  · rcases hbuffered with hmem | ⟨rfl, ⟨hnone, -⟩ | ⟨⟨last, hlast, hjump⟩, -⟩⟩
    · exact .inl (h.passed x hmem hbefore)
    · obtain ⟨l, hl, -⟩ := hbefore
      rw [hnone] at hl
      cases hl
    · obtain ⟨l, hl, hle⟩ := hbefore
      rw [hlast] at hl
      cases hl
      omega
  have heq : ∀ h : sn.toNat ≤ x.toNat, x ∈ delivers (actsOn key events) := fun h =>
    UInt32.toNat_inj.mp (le_antisymm h hle) ▸ hdelivered
  rcases hbuffered with hmem | ⟨rfl, -⟩
  swap
  · exact .inr hdelivered
  rcases hgoes with ⟨hnone, hclosed⟩ | ⟨last, hlast, hnext⟩ | ⟨hhole, hr⟩
  · exact .inr (heq (hfirst hnone (by simpa using hclosed) x hmem))
  · by_cases hxsn : x.toNat = sn.toNat
    · exact .inr (heq hxsn.ge)
    · exact .inl (h.passed x hmem ⟨last, hlast, by omega⟩)
  · rcases hoff hhole hr x hmem with hbefore | hle'
    · exact .inl (h.passed x hmem hbefore)
    · exact .inr (heq hle')

theorem Accounted.taken_idle {acts : List Act} {sample : Sample α} {live : Bool}
    {source : EntityGlobalId} {sn : UInt32} {events : List (Event α)} {state : SourceState α}
    (h : Accounted s key acts) (hlossless : Lossless s (.ingest sample live))
    (hseq : sample.sequenced = some (source, sn)) (hkey : source.key = key)
    (htaken : Taken key false s.retransmission (decide (s.globalPendingQueries ≠ 0)) (s.source key) sn
      events state) (hglobal : s.globalPendingQueries = 0) (hqueries : state.pendingQueries = 0)
    (hlive : live = true → s.retransmission = true → state.pendingSamples = ∅) :
    state.pendingSamples = ∅ := by
  have hq : (s.source key).pendingQueries = 0 := htaken.queries ▸ hqueries
  have hempty := h.idle hglobal hq
  by_contra hne
  obtain ⟨x, hx⟩ : ∃ x, x ∈ state.pendingSamples := by
    by_contra hnone
    push Not at hnone
    exact hne (ExtTreeMap.eq_empty_iff_forall_not_mem.mpr hnone)
  rcases htaken.buffered x hx with hmem | ⟨-, ⟨-, hopen⟩ | ⟨hhole, hr⟩⟩
  · rw [hempty] at hmem
    exact ExtTreeMap.not_mem_empty hmem
  · exact of_decide_eq_true hopen hglobal
  · have hown := ((hlossless source sn hseq).2.2 (hkey.symm ▸ hhole) hr).2
    rw [hkey] at hown
    cases live with
    | true => exact hne (hlive rfl hr)
    | false => exact (hown rfl).elim (· hglobal) (· hq)

theorem Accounted.step {call : Call α} {output : Output α} {acts : List Act}
    (h : Accounted s key acts) (hhandled : Handled false s call output s')
    (hlossless : Lossless s call) :
    Accounted s' key (acts ++ actsOn key output.events) ∧
      ∀ sn, Held s key acts sn ∨ Brings s key sn call →
        Held s' key (acts ++ actsOn key output.events) sn := by
  have htouched := hhandled.touched key
  have hfollows := h.follows.append htouched.follows
  cases htouched with
  | quiet hacts hlast hpending hidle hcall =>
    have hpassed : ∀ x, Passed (s'.source key) x → Passed (s.source key) x := by
      rintro x ⟨l, hl, hle⟩
      exact ⟨l, hlast ▸ hl, hle⟩
    rw [hacts, List.append_nil] at hfollows ⊢
    refine ⟨⟨hfollows, fun x hx hx' => h.passed x (hpending ▸ hx) (hpassed x hx'),
      fun hglobal hq => ?_⟩, fun sn hsn => ?_⟩
    · rw [hpending]
      exact h.idle (hidle hglobal hq).1 (hidle hglobal hq).2
    · rcases hsn with hheld | ⟨sample, live, source, hc, hs, hkey, -⟩
      · exact hheld.imp_right fun hmem => hpending ▸ hmem
      · exact absurd hkey (hcall sample live source sn hc hs)
  | flushed _ hpending hall hcall =>
    refine ⟨⟨hfollows, fun x hx => ?_, fun _ _ => hpending⟩, fun sn hsn => .inl ?_⟩
    · rw [hpending] at hx
      exact absurd hx ExtTreeMap.not_mem_empty
    rw [delivers_append, List.mem_append]
    rcases hsn with (hdelivered | hmem) | ⟨sample, live, source, hc, hs, hkey, -⟩
    · exact .inl hdelivered
    · exact (hall sn hmem).symm.imp_left fun hpassed => h.passed sn hmem hpassed
    · exact absurd hkey (hcall sample live source sn hc hs)
  | @taken sample live source sn' events state hcall hseq hkey hacts htaken hlast hpending hglobal
      hqueries =>
    subst hcall
    rw [hacts] at hfollows ⊢
    refine ⟨⟨hfollows, fun x hx hx' => ?_, fun hzero hq => ?_⟩, fun sn hsn => ?_⟩
    · obtain ⟨l, hl, hle⟩ := hx'
      exact h.taken_passed hlossless hseq hkey htaken (hpending ▸ hx) ⟨l, hlast ▸ hl, hle⟩
    · rw [hpending]
      rw [hglobal] at hzero
      exact h.taken_idle hlossless hseq hkey htaken hzero (hqueries hq).1 ((hqueries hq).2 hzero)
    · rw [Held, delivers_append, List.mem_append, hpending]
      rcases hsn with (hdelivered | hmem) | ⟨sample', live', source', hc, hs, -, hnot⟩
      · exact .inl (.inl hdelivered)
      · exact (htaken.kept sn hmem).symm.imp_left .inr
      · cases hc
        rw [hseq] at hs
        cases hs
        exact (htaken.here hnot).symm.imp_left .inr

/-- Some call of a run brings a sample of this number, which is not late then. -/
def Ingested [IterOrder] (s : State α) (calls : List (Call α)) (key : Key) (sn : UInt32) : Prop :=
  ∃ before call after mid outputs, calls = before ++ call :: after ∧
    Steps.run step s before = some (mid, outputs) ∧ Brings mid key sn call

theorem Ingested.cases [IterOrder] {call : Call α} {calls : List (Call α)} {sn : UInt32}
    {output : Output α} (h : Ingested s (call :: calls) key sn)
    (hstep : Subscriber.step s call = some (s', output)) :
    Brings s key sn call ∨ Ingested s' calls key sn := by
  obtain ⟨before, call', after, mid, outputs, heq, hrun, hbrings⟩ := h
  cases before with
  | nil =>
    cases heq
    cases hrun
    exact .inl hbrings
  | cons first before =>
    cases heq
    simp only [Steps.run, Option.bind_eq_bind, Option.bind_eq_some_iff] at hrun
    obtain ⟨⟨next, output'⟩, hnext, ⟨last, rest⟩, hlast, hpair⟩ := hrun
    rw [hstep] at hnext
    cases hnext
    cases hpair
    exact .inr ⟨before, call', after, last, rest, rfl, hlast, hbrings⟩

theorem accounted_run [IterOrder] (hsane : Sane s) (calls : List (Call α)) {acts : Key → List Act}
    (h : ∀ key, Accounted s key (acts key)) (hbounded : Steps.Along step (fun _ => Bounded) s calls)
    (hlossless : Steps.Along step Lossless s calls) :
    ∃ s' outputs, Steps.run step s calls = some (s', outputs) ∧
      ∀ key, Accounted s' key (acts key ++ actsOf key outputs) ∧
        ∀ sn, Held s key (acts key) sn ∨ Ingested s calls key sn →
          Held s' key (acts key ++ actsOf key outputs) sn := by
  induction calls generalizing s acts with
  | nil =>
    refine ⟨s, [], rfl, fun key => ?_⟩
    rw [show actsOf key ([] : List (Output α)) = [] from rfl, List.append_nil]
    refine ⟨h key, fun sn hsn => hsn.elim id ?_⟩
    rintro ⟨before, _, _, _, _, heq, -⟩
    simp at heq
  | cons call calls ih =>
    obtain ⟨mid, output, hstep, hhandled⟩ := exists_step hsane hbounded.1 hlossless.1.spillsWell
    obtain ⟨s', outputs, hrun, hrest⟩ := ih hhandled.sane
      (fun key => ((h key).step hhandled hlossless.1).1) (hbounded.2 mid output hstep)
      (hlossless.2 mid output hstep)
    refine ⟨s', output :: outputs, Steps.run_cons hstep hrun, fun key => ?_⟩
    rw [actsOf_cons, ← List.append_assoc]
    refine ⟨(hrest key).1, fun sn hsn => (hrest key).2 sn ?_⟩
    have hstepHeld := ((h key).step hhandled hlossless.1).2 sn
    rcases hsn with hheld | hin
    · exact .inl (hstepHeld (.inl hheld))
    · exact (hin.cases hstep).imp_left fun hbrings => hstepHeld (.inr hbrings)

/-- The number of samples that acts report missed. -/
def missedCount (acts : List Act) : ℕ :=
  (acts.map fun
    | .deliver _ => 0
    | .miss nb => nb.toNat).sum

theorem Follows.after {silent : Bool} {last last' : Option UInt32} {acts before tail : List Act}
    {x : UInt32} (h : Follows silent last acts last') (heq : acts = before ++ .deliver x :: tail) :
    Follows silent (some x) tail last' := by
  induction h generalizing before with
  | nil => simp at heq
  | deliver _ hrest ih =>
    cases before with
    | nil =>
      cases heq
      exact hrest
    | cons act before =>
      cases heq
      exact ih rfl
  | missed _ _ hrest ih =>
    match before, heq with
    | [_], heq =>
      cases heq
      exact hrest
    | _ :: _ :: before, heq =>
      cases heq
      exact ih rfl

theorem Follows.missedCount_between {last' : Option UInt32} {between after : List Act} {x y : UInt32}
    (h : Follows false (some x) (between ++ .deliver y :: after) last')
    (hbetween : ∀ act ∈ between, act.delivered? = none) :
    missedCount between = y.toNat - x.toNat - 1 := by
  match between, h with
  | [], .deliver hadmits _ =>
    rcases hadmits x rfl with hnext | ⟨hsilent, -⟩
    · rw [hnext, missedCount]
      simp
    · cases hsilent
  | .deliver sn :: _, _ => simp [Act.delivered?] at hbetween
  | [.miss nb], .missed _ hnb _ =>
    rw [missedCount]
    simp
    omega
  | .miss _ :: .deliver sn :: _, _ => simp [Act.delivered?] at hbetween

theorem accounted_start (retransmission : Bool) (n depth : ℕ) (key : Key) :
    Accounted (start retransmission n depth : State α) key [] where
  follows := .nil _
  passed x hx := absurd hx (by simp [State.source, start, withHistory, withRetransmission, State.new])
  idle _ _ := by simp [State.source, start, withHistory, withRetransmission, State.new]

/-- Whenever no query is open that may bring samples of a source, all that came of it and was not late
has been delivered, and the reports between two deliveries in a row account for the numbers between. -/
theorem complete_run [IterOrder] (retransmission : Bool) (n depth : ℕ) (calls : List (Call α))
    (hallowed : Steps.Along step Allowed (start retransmission n depth) calls)
    (hlossless : Steps.Along step Lossless (start retransmission n depth) calls) :
    ∃ s' outputs, Steps.run step (start retransmission n depth) calls = some (s', outputs) ∧
      ∀ key, s'.globalPendingQueries = 0 → (s'.source key).pendingQueries = 0 →
        (∀ sn, Ingested (start retransmission n depth) calls key sn → sn ∈ deliveredOf key outputs) ∧
        ∀ before between after x y,
          actsOf key outputs = before ++ .deliver x :: between ++ .deliver y :: after →
          (∀ act ∈ between, act.delivered? = none) → x < y →
            missedCount between = y.toNat - x.toNat - 1 := by
  obtain ⟨s', outputs, hrun, haccounted⟩ := accounted_run (sane_start retransmission n depth) calls
    (accounted_start retransmission n depth) (hallowed.imp fun _ _ h => h.bounded) hlossless
  refine ⟨s', outputs, hrun, fun key hglobal hq => ⟨fun sn hin => ?_, ?_⟩⟩
  · obtain ⟨hkey, hheld⟩ := haccounted key
    rcases hheld sn (.inr hin) with hdelivered | hmem
    · exact hdelivered
    · rw [hkey.idle hglobal hq] at hmem
      exact absurd hmem ExtTreeMap.not_mem_empty
  · intro before between after x y heq hbetween _
    have htail : Follows false (some x) (between ++ .deliver y :: after) _ :=
      (haccounted key).1.follows.after
        (show _ = before ++ .deliver x :: (between ++ .deliver y :: after) by simp [heq])
    exact htail.missedCount_between hbetween

/-- A test for lossless calls: nothing buffered is before the sample, and there is room. -/
def lossless? (s : State α) : Call α → Bool
  | .ingest sample live => sample.sequenced.all fun (source, sn) =>
    let state := s.source source.key
    ((s.globalPendingQueries ≠ 0 && state.lastDelivered.isNone) ||
      state.pendingSamples.keys.all fun x => sn.toNat ≤ x.toNat) &&
    (buffer state sn sample).pendingSamples.size < s.maxHistoryDepth &&
    (live || s.globalPendingQueries ≠ 0 || state.pendingQueries ≠ 0)
  | _ => true

theorem lossless_of_lossless? (s : State α) (call : Call α) (h : lossless? s call = true) :
    Lossless s call := by
  cases call with
  | ingest sample live =>
    intro source sn hseq state
    simp only [lossless?, hseq, Option.all_some, Bool.and_eq_true, Bool.or_eq_true, decide_eq_true_eq,
      List.all_eq_true, ExtTreeMap.mem_keys, Option.isNone_iff_eq_none, ne_eq, or_assoc] at h
    obtain ⟨⟨hpast, hroom⟩, hopen⟩ := h
    refine ⟨fun _ hzero x hx => ?_, ?_, fun _ _ => ⟨hroom, fun hlive => ?_⟩⟩
    · exact hpast.elim (fun hopen => absurd hzero hopen.1) (· x hx)
    · rintro ⟨last, hlast, -⟩ _ x hx
      refine .inr (hpast.elim (fun hopen => ?_) (· x hx))
      rw [show (s.source source.key).lastDelivered = some last from hlast] at hopen
      cases hopen.2
    · exact hopen.resolve_left (by simp [hlive])
  | _ => trivial

theorem complete_run_recovering :
    letI := keyOrder
    Steps.Along step Allowed (start true 1 8) recoveringCalls ∧
      Steps.Along step Lossless (start true 1 8) recoveringCalls ∧
      ∃ s' outputs, Steps.run step (start true 1 8) recoveringCalls = some (s', outputs) ∧
        ∀ key, s'.globalPendingQueries = 0 → (s'.source key).pendingQueries = 0 →
          (∀ sn, Ingested (start true 1 8) recoveringCalls key sn → sn ∈ deliveredOf key outputs) ∧
          ∀ before between after x y,
            actsOf key outputs = before ++ .deliver x :: between ++ .deliver y :: after →
            (∀ act ∈ between, act.delivered? = none) → x < y →
              missedCount between = y.toNat - x.toNat - 1 := by
  let _ := keyOrder
  have hallowed : Steps.Along step Allowed (start true 1 8) recoveringCalls :=
    Steps.along_of_check allowed_of_permitted (by decide +kernel)
  have hlossless : Steps.Along step Lossless (start true 1 8) recoveringCalls :=
    Steps.along_of_check lossless_of_lossless? (by decide +kernel)
  exact ⟨hallowed, hlossless, complete_run true 1 8 recoveringCalls hallowed hlossless⟩

/-- History of three samples into a buffer for one, without retransmission. -/
def crowdedCalls : List (Call Unit) :=
  [.ingest (sampleAt 5) false, .ingest (sampleAt 8) false, .ingest (sampleAt 9) false, .finishHistory]

/-- The second sample fills the buffer, which spills the first; the third then goes out at once, past the
second. -/
theorem complete_run_crowded :
    letI := keyOrder
    Steps.Along step Allowed (start false 1 2) crowdedCalls ∧
      ∃ s' outputs, Steps.run step (start false 1 2) crowdedCalls = some (s', outputs) ∧
        s'.globalPendingQueries = 0 ∧ (s'.source ([7], 1)).pendingQueries = 0 ∧
        Ingested (start false 1 2) crowdedCalls ([7], 1) 8 ∧ 8 ∉ deliveredOf ([7], 1) outputs := by
  let _ := keyOrder
  have hrun : (Steps.run step (start false 1 2) crowdedCalls).any (fun r =>
      decide (r.1.globalPendingQueries = 0) && decide ((r.1.source ([7], 1)).pendingQueries = 0) &&
      decide (8 ∉ deliveredOf ([7], 1) r.2)) = true := by decide +kernel
  have hfirst : (Steps.run step (start false 1 2) (crowdedCalls.take 1)).any (fun r =>
      (r.1.source ([7], 1)).lastDelivered.isNone) = true := by decide +kernel
  obtain ⟨⟨s', outputs⟩, heq, hfacts⟩ := (Option.any_eq_true _ _).mp hrun
  obtain ⟨⟨mid, answers⟩, hmid, hnone⟩ := (Option.any_eq_true _ _).mp hfirst
  simp only [Bool.and_eq_true, decide_eq_true_eq] at hfacts
  obtain ⟨⟨hglobal, hqueries⟩, hlost⟩ := hfacts
  refine ⟨Steps.along_of_check allowed_of_permitted (by decide +kernel), s', outputs, heq, hglobal,
    hqueries, ?_, hlost⟩
  refine ⟨crowdedCalls.take 1, .ingest (sampleAt 8) false, crowdedCalls.drop 2, mid, answers, rfl, hmid,
    sampleAt 8, false, _, rfl, rfl, rfl, ?_⟩
  rintro ⟨last, hlast, -⟩
  rw [hlast] at hnone
  cases hnone

end WatchingZenoh.Subscriber
