import WatchingZenoh.PeerStops

/-! Runs of the planner: its books match its machines after every call, whatever the order of the
calls and the answers of the host. -/

namespace WatchingZenoh.PeerPlanner

open KeyedRows

variable {K I T σ : Type} [LinearOrder K]
variable {S : Setting K I T σ} {s s' : Desk K I T σ} {key : K} {fuel : ℕ}

/-! A face dies. -/

/-- What is held for a peer whose face has just died. -/
def Bereft (v : View I) : Prop :=
  v = ⟨some .established, 0, none, none⟩ ∨ v = ⟨some .passiveUp, 0, none, none⟩

theorem acted_lost (hfuel : 3 ≤ fuel) (lost : List K) (hnodup : lost.Nodup) {s : Desk K I T σ}
    (hsound : Sound S s) (hbereft : ∀ k ∈ lost, Bereft (s.planner.view k))
    (hfits : ∀ k ∉ lost, (s.planner.view k).Fits) :
    ∃ s', lost.foldlM (fun s key => S.deliver fuel key .sessionLost true s) s = some s' ∧
      Acted S s s' ∧ Steady s s' := by
  induction lost generalizing s with
  | nil =>
    exact ⟨s, rfl, ⟨⟨hsound, fun k => hfits k (by simp)⟩, Asked.refl s⟩, Steady.refl s⟩
  | cons key lost ih =>
    obtain ⟨hkey, hnodup⟩ := List.nodup_cons.mp hnodup
    have hdeliver : ∃ mid, S.deliver fuel key .sessionLost true s = some mid ∧
        Worked S key s mid ∧ (mid.planner.view key).Fits := by
      rcases hbereft key List.mem_cons_self with hview | hview
      · refine deliver_of_owes hsound true hfuel (congrArg View.state hview) .sessionLost ?_
        rw [hview]
        exact .arm
      · refine deliver_of_owes hsound true hfuel (congrArg View.state hview) .sessionLost ?_
        rw [hview]
        exact .nothing _ (View.fits_bare (by decide) (by decide) (by decide) (by decide))
    obtain ⟨mid, hmid, hworked, hself⟩ := hdeliver
    have hother : ∀ k ∈ lost, k ≠ key := fun k hk heq => hkey (heq ▸ hk)
    obtain ⟨s', hrun, hacted, hsteady⟩ := ih hnodup hworked.sound
      (fun k hk => by
        rw [hworked.others k (hother k hk)]
        exact hbereft k (List.mem_cons_of_mem _ hk))
      (fun k hk => by
        by_cases hkk : k = key
        · exact hkk ▸ hself
        · rw [hworked.others k hkk]
          exact hfits k (by simp [hkk, hk]))
    refine ⟨s', ?_, ⟨hacted.matched, hworked.asked.trans hacted.asked⟩, hworked.steady.trans hsteady⟩
    rw [List.foldlM_cons, hmid]
    exact hrun

section DecidableFace

variable [DecidableEq I]

theorem mem_heldBy (h : Sound S s) (id : I) (k : K) :
    k ∈ S.heldBy s.planner id ↔ row s.planner.held k = some id := by
  have htake : ((s.planner.held.filter (·.2 = id)).map Prod.fst).take S.N =
      (s.planner.held.filter (·.2 = id)).map Prod.fst := by
    refine List.take_of_length_le ?_
    rw [List.length_map]
    exact (List.length_filter_le _ _).trans h.held_le
  rw [Setting.heldBy, List.mem_mergeSort, htake, row_eq_some_iff h.held]
  simp

theorem nodup_heldBy (h : Sound S s) (id : I) : (S.heldBy s.planner id).Nodup := by
  rw [Setting.heldBy, (List.mergeSort_perm _ _).nodup_iff]
  exact ((h.held.sublist (List.filter_sublist.map _)).sublist (List.take_sublist _ _))

theorem row_filter_held {held : List (K × I)} (h : Keyed held) (id : I) (k : K) :
    row (held.filter (·.2 ≠ id)) k = if row held k = some id then none else row held k := by
  have hkeyed : Keyed (held.filter (·.2 ≠ id)) := h.sublist (List.filter_sublist.map _)
  refine Option.ext fun face => ?_
  rw [row_eq_some_iff hkeyed, List.mem_filter, ← row_eq_some_iff h]
  by_cases hid : row held k = some id
  · rw [if_pos hid, hid]
    simp only [Option.some.injEq, reduceCtorEq, iff_false, not_and, decide_eq_true_eq, not_not]
    exact fun heq => heq.symm
  · rw [if_neg hid, and_iff_left_iff_imp]
    intro hrow
    simp only [decide_eq_true_eq]
    rintro rfl
    exact hid hrow

theorem acted_faceDown (h : Matched S s) (hfuel : 3 ≤ fuel) (id : I) :
    ∃ s' ok, S.faceDown fuel id s = some (s', ok) ∧ Acted S s s' ∧ Steady s s' := by
  rw [Setting.faceDown]
  dsimp only
  split_ifs with hempty
  · exact ⟨s, false, rfl, ⟨h, Asked.refl s⟩, Steady.refl s⟩
  · have hrow := row_filter_held h.sound.held id
    have hsound : Sound S
        { s with planner := { s.planner with held := s.planner.held.filter (·.2 ≠ id) } } :=
      { h.sound with
        held := h.sound.held.sublist (List.filter_sublist.map _)
        held_le := (List.length_filter_le _ _).trans h.sound.held_le
        held_sub := fun k hk => h.sound.held_sub k fun hnone => hk (by rw [hrow, hnone]; simp) }
    have hview : ∀ k, ({ s.planner with held := s.planner.held.filter (·.2 ≠ id) } :
        PeerPlanner K I).view k = { s.planner.view k with
          held := if row s.planner.held k = some id then none else row s.planner.held k } := fun k => by
      simp only [PeerPlanner.view, PeerPlanner.state, hrow]
    obtain ⟨s', hrun, hacted, hsteady⟩ := acted_lost hfuel (S.heldBy s.planner id) (nodup_heldBy h.sound id)
      hsound (fun k hk => by
        rw [mem_heldBy h.sound] at hk
        have hheld : (s.planner.view k).held.isSome := by
          rw [PeerPlanner.view, hk]
          rfl
        rw [hview, if_pos hk]
        rcases (h.fits k).held.mp hheld with hst | hst
        · rcases (h.fits k).cases hst with ⟨heq, -⟩ | ⟨-, id', heq⟩ | ⟨heq, -⟩ | ⟨-, heq, -⟩
          · simp at heq
          · exact .inl (by rw [heq])
          · simp at heq
          · simp at heq
        · rcases (h.fits k).cases hst with ⟨heq, -⟩ | ⟨-, id', heq⟩ | ⟨heq, -⟩ | ⟨-, -, heq, -⟩
          · simp at heq
          · exact .inr (by rw [heq])
          · simp at heq
          · simp at heq)
      (fun k hk => by
        rw [mem_heldBy h.sound] at hk
        rw [hview, if_neg hk]
        exact h.fits k)
    have hasked : Asked S s
        { s with planner := { s.planner with held := s.planner.held.filter (·.2 ≠ id) } } :=
      ⟨le_rfl, ⟨[], by simp, by simp [dialIds]⟩, fun _ => .inl⟩
    exact ⟨s', true, by rw [hrun]; rfl, ⟨hacted.matched, hasked.trans hacted.asked⟩,
      hsteady.remotes, hsteady.known⟩

/-! The other calls. -/

omit [DecidableEq I] in
theorem acted_forget (h : Matched S s) (key : K) :
    Acted S s { s with planner := s.planner.forget key } := by
  have hentries := dropped_dropRow h.sound.entries key
  have hheld := dropped_dropRow h.sound.held key
  have harmed := dropped_dropRow h.sound.armed key
  have hviewSelf : (s.planner.forget key).view key = ⟨none, 0, none, none⟩ := by
    simp only [PeerPlanner.view, PeerPlanner.state, PeerPlanner.forget, hentries.row_self,
      hheld.row_self, harmed.row_self,
      runningFor_markDials_self (by simp : DialState.released ≠ .running key)]
  have hview : ∀ k ≠ key, (s.planner.forget key).view k = s.planner.view k := fun k hk => by
    simp only [PeerPlanner.view, PeerPlanner.state, PeerPlanner.forget, hentries.row_ne k hk,
      hheld.row_ne k hk, harmed.row_ne k hk,
      runningFor_markDials_ne hk (by simp : DialState.released ≠ .running k)]
  have hmark := h.sound.mark key .released
  refine ⟨⟨?_, fun k => ?_⟩, ⟨le_rfl, ⟨[], by simp, by simp [dialIds]⟩, fun id hid => .inl ?_⟩⟩
  · have hsub : ∀ k, (s.planner.forget key).state k = none →
        row (s.planner.forget key).held k = none ∧ row (s.planner.forget key).armed k = none := by
      intro k hnone
      by_cases hk : k = key
      · subst hk
        exact ⟨hheld.row_self, harmed.row_self⟩
      · have hstate : s.planner.state k = none :=
          (congrArg View.state (hview k hk)).symm.trans hnone
        have hbare := (h.fits k).of_none hstate
        exact ⟨(congrArg View.held ((hview k hk).trans hbare)),
          (congrArg View.armed ((hview k hk).trans hbare))⟩
    exact
      { entries := hentries.keyed
        entries_le := hentries.length_le.trans h.sound.entries_le
        held := hheld.keyed
        held_le := hheld.length_le.trans h.sound.held_le
        held_sub := fun k hk hnone => hk (hsub k hnone).1
        armed := harmed.keyed
        armed_le := harmed.length_le.trans h.sound.armed_le
        armed_sub := fun k hk hnone => hk (hsub k hnone).2
        faces := hmark.faces
        dials := hmark.dials
        retried := fun k g hg => by
          by_cases hk : k = key
          · subst hk
            simp [PeerPlanner.forget, harmed.row_self] at hg
          · exact h.sound.retried k g (harmed.row_ne k hk ▸ hg) }
  · by_cases hk : k = key
    · subst hk
      rw [hviewSelf]
      exact View.fits_bare (by decide) (by decide) (by decide) (by decide)
    · rw [hview k hk]
      exact h.fits k
  · obtain ⟨k, hmem⟩ := hid
    exact runs_markDials s.planner key .released (by simp) ⟨k, hmem⟩

theorem acted_act (h : Matched S s) (hfuel : 3 ≤ fuel) (verb : Verb K I) :
    ∃ s', S.act fuel s verb = some s' ∧ Matched S s' ∧
      (Asked S s s' ∨ ∃ n, s' = { s with nextId := s.nextId + n }) := by
  cases verb with
  | open_ key =>
    obtain ⟨s', ok, hrun, hacted, -⟩ := acted_openWith h hfuel key (.inl rfl)
    exact ⟨s', by rw [Setting.act, Setting.open_, hrun]; rfl, hacted.matched, .inl hacted.asked⟩
  | openPassive key =>
    obtain ⟨s', ok, hrun, hacted, -⟩ := acted_openWith h hfuel key (.inr rfl)
    exact ⟨s', by rw [Setting.act, Setting.openPassive, hrun]; rfl, hacted.matched, .inl hacted.asked⟩
  | inboundUp key id =>
    obtain ⟨s', ok, hrun, hacted, -⟩ := acted_inboundUp h hfuel key id
    exact ⟨s', by rw [Setting.act, hrun]; rfl, hacted.matched, .inl hacted.asked⟩
  | inboundDown key =>
    obtain ⟨s', ok, hrun, hacted, -⟩ := acted_inboundDown h hfuel key
    exact ⟨s', by rw [Setting.act, hrun]; rfl, hacted.matched, .inl hacted.asked⟩
  | retryDue key generation =>
    obtain ⟨s', hrun, hacted, -⟩ := acted_retryDue h hfuel key generation
    exact ⟨s', hrun, hacted.matched, .inl hacted.asked⟩
  | dialEnded id dialEnd =>
    obtain ⟨s', answer, hrun, hacted, -⟩ := acted_dialEnded h hfuel id dialEnd
    exact ⟨s', by rw [Setting.act, hrun]; rfl, hacted.matched, .inl hacted.asked⟩
  | faceDown id =>
    obtain ⟨s', ok, hrun, hacted, -⟩ := acted_faceDown h hfuel id
    exact ⟨s', by rw [Setting.act, hrun]; rfl, hacted.matched, .inl hacted.asked⟩
  | withdraw zid node =>
    obtain ⟨s', hrun, hstopped⟩ := h.stops hfuel (S.reaching s.planner zid node)
    exact ⟨s', hrun, hstopped.matched, .inl hstopped.asked⟩
  | stop key =>
    obtain ⟨s', hrun, hstopped⟩ := h.stop hfuel key
    exact ⟨s', hrun, hstopped.matched, .inl hstopped.worked.asked⟩
  | forget key =>
    exact ⟨_, rfl, (acted_forget h key).matched, .inl (acted_forget h key).asked⟩
  | mint n =>
    refine ⟨_, rfl, ⟨{ h.sound with faces := fun d hd => ?_ }, h.fits⟩, .inr ⟨n, rfl⟩⟩
    obtain ⟨m, hm, hface⟩ := h.sound.faces d hd
    exact ⟨m, hm.trans_le (Nat.le_add_right _ _), hface⟩

/-- The dials asked for so far are under faces the counter has gone through, no two under one; and a
face that was used and does not run does not run again. -/
structure Fresh (S : Setting K I T σ) (s : Desk K I T σ) : Prop where
  nodup : (dialIds s.actions).Nodup
  used : ∀ id ∈ dialIds s.actions, ∃ n < s.nextId, id = S.face n

omit [LinearOrder K] [DecidableEq I] in
theorem Fresh.asked (h : Fresh S s) (hasked : Asked S s s') : Fresh S s' := by
  obtain ⟨done, hdone, hids⟩ := hasked.actions
  have hsplit : dialIds s'.actions = dialIds s.actions ++
      (List.range' s.nextId (s'.nextId - s.nextId)).map S.face := by
    rw [hdone, dialIds, List.filterMap_append, ← dialIds, ← dialIds, hids]
  have hnext := hasked.nextId
  refine ⟨?_, fun id hid => ?_⟩
  · rw [hsplit]
    refine h.nodup.append ((List.nodup_range' ..).map S.face_injective) ?_
    intro id hid hid'
    obtain ⟨n, hn, rfl⟩ := h.used id hid
    obtain ⟨m, hm, heq⟩ := List.mem_map.mp hid'
    rw [S.face_injective heq, List.mem_range'_1] at hm
    omega
  · rw [hsplit, List.mem_append] at hid
    rcases hid with hid | hid
    · obtain ⟨n, hn, heq⟩ := h.used id hid
      exact ⟨n, hn.trans_le hnext, heq⟩
    · obtain ⟨n, hn, rfl⟩ := List.mem_map.mp hid
      rw [List.mem_range'_1] at hn
      exact ⟨n, by omega, rfl⟩

structure Kept (S : Setting K I T σ) (s : Desk K I T σ) : Prop where
  matched : Matched S s
  fresh : Fresh S s

theorem kept_step (h : Kept S s) (hfuel : 3 ≤ fuel) (call : Call K I σ) :
    ∃ s', S.step fuel s call = some s' ∧ Kept S s' ∧ s.nextId ≤ s'.nextId ∧
      (∀ id, s'.planner.Runs id → s.planner.Runs id ∨ ∃ n, s.nextId ≤ n ∧ id = S.face n) ∧
      ∃ done, s'.actions = s.actions ++ done ∧
        ∀ id ∈ dialIds done, ∃ n, s.nextId ≤ n ∧ n < s'.nextId ∧ id = S.face n := by
  obtain ⟨s', hrun, hmatched, hasked | ⟨n, rfl⟩⟩ :=
    acted_act (h.matched.set_ports call.ports) hfuel call.verb
  · have hfresh : Fresh S { s with ports := call.ports } := ⟨h.fresh.nodup, h.fresh.used⟩
    obtain ⟨done, hdone, hids⟩ := hasked.actions
    refine ⟨s', hrun, ⟨hmatched, hfresh.asked hasked⟩, hasked.nextId, fun id hid => ?_, done, hdone,
      fun id hid => ?_⟩
    · rcases hasked.runs id hid with hid | ⟨n, hn, -, heq⟩
      · exact .inl hid
      · exact .inr ⟨n, hn, heq⟩
    · rw [hids] at hid
      obtain ⟨n, hn, rfl⟩ := List.mem_map.mp hid
      rw [List.mem_range'_1] at hn
      exact ⟨n, hn.1, by omega, rfl⟩
  · refine ⟨_, hrun, ⟨hmatched, h.fresh.nodup, fun id hid => ?_⟩, Nat.le_add_right _ _,
      fun id => .inl, [], (List.append_nil _).symm, by simp [dialIds]⟩
    obtain ⟨m, hm, heq⟩ := h.fresh.used id hid
    exact ⟨m, hm.trans_le (Nat.le_add_right _ _), heq⟩

omit [DecidableEq I] in
theorem kept_new (S : Setting K I T σ) (ports : σ) : Kept S (Desk.new ports) where
  matched :=
    { sound :=
        { entries := keyed_nil
          entries_le := Nat.zero_le _
          held := keyed_nil
          held_le := Nat.zero_le _
          held_sub := by simp [Desk.new, PeerPlanner.new, row]
          armed := keyed_nil
          armed_le := Nat.zero_le _
          armed_sub := by simp [Desk.new, PeerPlanner.new, row]
          faces := by simp [Desk.new, PeerPlanner.new]
          dials := keyed_nil
          retried := by simp [Desk.new, PeerPlanner.new, row] }
      fits := fun k => by
        have hview : (Desk.new ports : Desk K I T σ).planner.view k = ⟨none, 0, none, none⟩ := rfl
        rw [hview]
        exact View.fits_bare (by decide) (by decide) (by decide) (by decide) }
  fresh := ⟨List.nodup_nil, by simp [Desk.new, dialIds]⟩

theorem kept_run (h : Kept S s) (hfuel : 3 ≤ fuel) (calls : List (Call K I σ)) :
    ∃ s', S.run fuel s calls = some s' ∧ Kept S s' ∧
      ∀ id, (∃ n < s.nextId, id = S.face n) → ¬ s.planner.Runs id → ¬ s'.planner.Runs id := by
  induction calls generalizing s with
  | nil => exact ⟨s, rfl, h, fun _ _ hnot => hnot⟩
  | cons call calls ih =>
    obtain ⟨mid, hmid, hkept, hnext, hruns, -⟩ := kept_step h hfuel call
    obtain ⟨s', hrun, hkept', hstays⟩ := ih hkept
    refine ⟨s', ?_, hkept', ?_⟩
    · rw [Setting.run, List.foldlM_cons, hmid]
      exact hrun
    · rintro id ⟨n, hn, rfl⟩ hnot
      refine hstays _ ⟨n, hn.trans_le hnext, rfl⟩ fun hid => ?_
      rcases hruns _ hid with hid | ⟨m, hm, heq⟩
      · exact hnot hid
      · rw [S.face_injective heq] at hn
        omega

/-- The books of a planner match its machines. -/
structure InBooks (S : Setting K I T σ) (fuel : ℕ) (s : Desk K I T σ) : Prop where
  dialled : ∀ k, runningFor k s.planner.dials =
    if s.planner.state k = some .connecting then 1 else 0
  held : ∀ k, (row s.planner.held k).isSome ↔
    s.planner.state k = some .established ∨ s.planner.state k = some .passiveUp
  armed : ∀ k, (row s.planner.armed k).isSome ↔ s.planner.state k = some .backoff
  /-- The arming that is live is the one the host was last asked for. -/
  asked : ∀ k g, row s.planner.armed k = some g → lastRetry k s.actions = some g
  distinct : (dialIds s.actions).Nodup
  /-- A call ends, and the dials it asks for are under faces that neither the planner nor the host
  used before. -/
  ends : ∀ call, ∃ s', S.step fuel s call = some s' ∧ ∃ done, s'.actions = s.actions ++ done ∧
    ∀ id ∈ dialIds done, ∃ n, s.nextId ≤ n ∧ n < s'.nextId ∧ id = S.face n
  otherTimer : ∀ k g ports, row s.planner.armed k ≠ some g →
    S.step fuel s ⟨.retryDue k g, ports⟩ = some { s with ports := ports }
  unwantedDial : ∀ id dialEnd ports s', ¬ s.planner.Runs id →
    S.step fuel s ⟨.dialEnded id dialEnd, ports⟩ = some s' →
    s'.planner.entries = s.planner.entries
  /-- A dial whose peer was stopped while it ran is not wanted any more. -/
  stoppedDial : ∀ k id ports calls mid s', (id, .running k) ∈ s.planner.dials →
    S.step fuel s ⟨.stop k, ports⟩ = some mid → S.run fuel mid calls = some s' →
    ¬ s'.planner.Runs id
  inboundHeld : ∀ k id ports s', s.planner.state k = some .passive →
    S.step fuel s ⟨.inboundUp k id, ports⟩ = some s' → row s'.planner.held k = some id
  dialHeld : ∀ k id dialEnd face ports s', (id, .running k) ∈ s.planner.dials →
    dialEnd.heldAs id = some face → S.step fuel s ⟨.dialEnded id dialEnd, ports⟩ = some s' →
    row s'.planner.held k = some face

theorem Kept.inBooks (h : Kept S s) (hfuel : 3 ≤ fuel) : InBooks S fuel s where
  dialled := fun k => (h.matched.fits k).running
  held := fun k => (h.matched.fits k).held
  armed := fun k => (h.matched.fits k).armed
  asked := h.matched.sound.retried
  distinct := h.fresh.nodup
  ends := fun call => by
    obtain ⟨s', hrun, -, -, -, hdone⟩ := kept_step h hfuel call
    exact ⟨s', hrun, hdone⟩
  otherTimer := fun k g ports hne => by
    rw [Setting.step, Setting.act, Setting.retryDue, if_neg hne]
  unwantedDial := fun id dialEnd ports s' hnot hstep => by
    obtain ⟨s'', answer, hrun, -, hsame, -⟩ := acted_dialEnded (h.matched.set_ports ports) hfuel id
      dialEnd
    rw [Setting.step, Setting.act, hrun] at hstep
    cases hstep
    exact (hsame hnot).1
  stoppedDial := fun k id ports calls mid s' hmem hstep hrun => by
    have hmatched := h.matched.set_ports ports
    obtain ⟨mid', hstop, hstopped⟩ := hmatched.stop hfuel k
    rw [Setting.step, Setting.act, hstop] at hstep
    cases hstep
    obtain ⟨n, hn, hface⟩ := h.matched.sound.faces _ hmem
    have hfresh : Fresh S { s with ports := ports } := ⟨h.fresh.nodup, h.fresh.used⟩
    have hkept : Kept S mid := ⟨hstopped.matched, hfresh.asked hstopped.worked.asked⟩
    obtain ⟨last, hlast, -, hstays⟩ := kept_run hkept hfuel calls
    rw [hrun] at hlast
    cases hlast
    exact hstays id ⟨n, hn.trans_le hstopped.worked.asked.nextId, hface⟩
      (hstopped.not_runs hmatched.sound hmem)
  inboundHeld := fun k id ports s' hst hstep => by
    obtain ⟨s'', ok, hrun, -, -, hheld⟩ := acted_inboundUp (h.matched.set_ports ports) hfuel k id
    have hok : ok = true := by
      have hst' : ({ s with ports := ports } : Desk K I T σ).planner.state k = some .passive := hst
      rw [Setting.inboundUp, if_pos hst', Option.map_eq_some_iff] at hrun
      obtain ⟨up, -, hpair⟩ := hrun
      exact (Prod.mk.inj hpair).2.symm
    rw [Setting.step, Setting.act, hrun] at hstep
    cases hstep
    exact hheld hok
  dialHeld := fun k id dialEnd face ports s' hmem hface hstep => by
    obtain ⟨s'', answer, hrun, -, -, hheld⟩ := acted_dialEnded (h.matched.set_ports ports) hfuel id
      dialEnd
    rw [Setting.step, Setting.act, hrun] at hstep
    cases hstep
    exact (hheld k hmem).2 face hface

/-- The books match the machines after every run of any calls. -/
theorem planner_inBooks (S : Setting K I T σ) (fuel : ℕ) (ports : σ) (calls : List (Call K I σ)) :
    ∃ s, S.run (fuel + 3) (Desk.new ports) calls = some s ∧ InBooks S (fuel + 3) s := by
  obtain ⟨s, hrun, hkept, -⟩ := kept_run (kept_new S ports) (Nat.le_add_left 3 fuel) calls
  exact ⟨s, hrun, hkept.inBooks (Nat.le_add_left 3 fuel)⟩

end DecidableFace

end WatchingZenoh.PeerPlanner
