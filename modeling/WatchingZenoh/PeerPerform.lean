import WatchingZenoh.PeerViews

/-! Performing a peer's duties ends, within three rounds, with books that match its machine. A round
of duties raises at most the dial that follows a resolution, and the wait that follows a dial that
could not be made. -/

namespace WatchingZenoh.PeerPlanner

open KeyedRows

variable {K I T σ : Type} [LinearOrder K]
variable {S : Setting K I T σ} {s : Desk K I T σ} {key : K}

/-- How many rounds the duties take at most. -/
def PeerDuties.rounds (d : PeerDuties) : ℕ :=
  if d.resolve then 3 else if d.dial then 2 else if d.isEmpty then 0 else 1

/-- What a round of duties leaves: the books up to the duties it raised, which take fewer rounds. -/
structure Round (S : Setting K I T σ) (key : K) (d : PeerDuties) (s : Desk K I T σ)
    (r : Desk K I T σ × PeerDuties) : Prop where
  worked : Worked S key s r.1
  owes : (r.1.planner.view key).Owes r.2
  fewer : r.2.rounds < d.rounds

theorem Worked.round {d : PeerDuties} {r : Desk K I T σ × PeerDuties} (h : Worked S key s r.1)
    {v : View I} (hview : r.1.planner.view key = v) (howes : v.Owes r.2)
    (hfewer : r.2.rounds < d.rounds) : Round S key d s r :=
  ⟨h, hview ▸ howes, hfewer⟩

theorem Worked.settled {d : PeerDuties} {s' : Desk K I T σ} (h : Worked S key s s') {v : View I}
    (hview : s'.planner.view key = v) (hfits : v.Fits) (hd : 0 < d.rounds) :
    Round S key d s (s', {}) :=
  ⟨h, .nothing _ (hview ▸ hfits), hd⟩

theorem View.fits_bare {st : Option PeerConnectionState} (hc : st ≠ some .connecting)
    (he : st ≠ some .established) (hp : st ≠ some .passiveUp) (hb : st ≠ some .backoff) :
    (⟨st, 0, none, none⟩ : View I).Fits :=
  ⟨by simp [hc], by simp [he, hp], by simp [hb]⟩

theorem View.fits_held (id : I) {st : PeerConnectionState}
    (hst : st = .established ∨ st = .passiveUp) : (⟨some st, 0, some id, none⟩ : View I).Fits := by
  rcases hst with rfl | rfl <;> exact ⟨rfl, by simp, by simp⟩

theorem round_report (h : Sound S s) (ports : σ) {st : PeerConnectionState} {running : ℕ}
    {held : Option I} {armed : Option ℕ}
    (hview : s.planner.view key = ⟨some st, running, held, armed⟩) (e : PeerConnectionEvent)
    {d : PeerDuties} (howes : View.Owes (st.drive e).2 ⟨some (st.drive e).1, running, held, armed⟩)
    (hfewer : (st.drive e).2.rounds < d.rounds) :
    Round S key d s (S.reportTo key e { s with ports := ports }) := by
  have hst : s.planner.state key = some st := congrArg View.state hview
  obtain ⟨hworked, hafter, hduties⟩ := worked_reportTo (h.set_ports ports) hst e
  have hview' : s.planner.view key = ⟨some st, running, held, armed⟩ := hview
  refine ((worked_set_ports h ports).trans hworked).round hafter ?_ (hduties ▸ hfewer)
  rw [hduties]
  simpa only [hview'] using howes

theorem round_resolve (h : Sound S s) (lost : Bool)
    (hview : s.planner.view key = ⟨some .resolving, 0, none, none⟩) :
    Round S key { resolve := true } s (S.performRound key { resolve := true } lost s) := by
  have hround : S.performRound key { resolve := true } lost s =
      S.reportTo key (if (S.host.dialable s.ports key).1.isSome then .resolveFound else .resolveEmpty)
        { s with ports := (S.host.dialable s.ports key).2 } := rfl
  rw [hround]
  split_ifs with hfound
  · exact round_report h _ hview .resolveFound .dial (by decide)
  · exact round_report h _ hview .resolveEmpty
        (.nothing _ (View.fits_bare (by decide) (by decide) (by decide) (by decide))) (by decide)

theorem round_dial (h : Sound S s) (lost : Bool)
    (hview : s.planner.view key = ⟨some .connecting, 0, none, none⟩) :
    Round S key { dial := true } s (S.performRound key { dial := true } lost s) := by
  have hround : S.performRound key { dial := true } lost s =
      S.performReach key { dial := true } s := rfl
  rw [hround, Setting.performReach, if_neg (by simp), if_pos rfl]
  rcases htarget : (S.host.dialable s.ports key).1 with _ | target
  · simp only [htarget]
    exact round_report h _ hview .dialFailed .arm (by decide)
  · simp only [htarget]
    split_ifs with hroom
    · obtain ⟨hworked, hafter⟩ := worked_dial
        (h.set_ports (S.host.dialable s.ports key).2) key target
      refine ((worked_set_ports h _).trans hworked).settled hafter ?_ (by decide)
      simp only [hview]
      exact ⟨rfl, by simp, by simp⟩
    · exact round_report h _ hview .dialNoSlot
        (.nothing _ (View.fits_bare (by decide) (by decide) (by decide) (by decide))) (by decide)

theorem round_arm (h : Sound S s) (lost : Bool)
    (hview : s.planner.view key = ⟨some .backoff, 0, none, none⟩) :
    Round S key { armRetry := true } s (S.performRound key { armRetry := true } lost s) := by
  have hround : S.performRound key { armRetry := true } lost s =
      (S.performArm key { armRetry := true } lost s, {}) := rfl
  have hst : s.planner.state key = some .backoff := congrArg View.state hview
  have hknown : s.planner.state key ≠ none := by simp [hst]
  obtain ⟨hworked, hafter⟩ := worked_arm h hknown lost
  rw [hround]
  refine hworked.settled hafter ?_ (by decide)
  rw [hview]
  exact ⟨rfl, by simp, by simp⟩

theorem round_reset (h : Sound S s) (lost : Bool) {id : I}
    (hview : s.planner.view key = ⟨some .established, 0, some id, none⟩) :
    Round S key { resetRetry := true } s (S.performRound key { resetRetry := true } lost s) := by
  have hround : S.performRound key { resetRetry := true } lost s =
      ({ s with ports := S.host.retryRestart s.ports key }, {}) := rfl
  rw [hround]
  exact (worked_set_ports h _).settled hview (View.fits_held id (.inl rfl)) (by decide)

theorem performRound_close (lost : Bool) {id : I} (hheld : row s.planner.held key = some id) :
    S.performRound key { closeSession := true } lost s =
      ({ s with
          planner := { s.planner with held := dropRow s.planner.held key }
          actions := s.actions ++ [.close id] }, {}) := by
  simp [Setting.performRound, Setting.performEnds, Setting.performArm, Setting.performReach, hheld]

theorem round_close (h : Sound S s) (lost : Bool) {id : I}
    (hview : s.planner.view key = ⟨some .idle, 0, some id, none⟩) :
    Round S key { closeSession := true } s (S.performRound key { closeSession := true } lost s) := by
  have hheld : row s.planner.held key = some id := congrArg View.held hview
  obtain ⟨hworked, hafter⟩ := worked_drop_held h key [.close id] rfl
    (fun k => by simp [lastRetry])
  rw [performRound_close lost hheld]
  refine hworked.settled hafter ?_ (by decide)
  rw [hview]
  exact View.fits_bare (by simp) (by simp) (by simp) (by simp)

theorem round_abandon (h : Sound S s) (lost : Bool) {n : ℕ}
    (hview : s.planner.view key = ⟨some .idle, n, none, none⟩) :
    Round S key { abandonDial := true } s (S.performRound key { abandonDial := true } lost s) := by
  have hround : S.performRound key { abandonDial := true } lost s =
      ({ s with planner := { s.planner with
          dials := markDials key .abandoned s.planner.dials } }, {}) := rfl
  obtain ⟨hworked, hafter⟩ := worked_abandon h key
  rw [hround]
  refine hworked.settled hafter ?_ (by decide)
  rw [hview]
  exact View.fits_bare (by simp) (by simp) (by simp) (by simp)

theorem round_cancel (h : Sound S s) (lost : Bool) {g : ℕ}
    (hview : s.planner.view key = ⟨some .idle, 0, none, some g⟩) :
    Round S key { cancelRetry := true } s (S.performRound key { cancelRetry := true } lost s) := by
  have hround : S.performRound key { cancelRetry := true } lost s =
      ({ s with
          ports := S.host.retryRestart s.ports key
          planner := { s.planner with armed := dropRow s.planner.armed key } }, {}) := rfl
  obtain ⟨hworked, hafter⟩ := worked_drop_armed
    (h.set_ports (S.host.retryRestart s.ports key)) key
  rw [hround]
  refine ((worked_set_ports h _).trans hworked).settled hafter ?_ (by decide)
  simp only [hview]
  exact View.fits_bare (by simp) (by simp) (by simp) (by simp)

theorem round_of_owes (h : Sound S s) (lost : Bool) {d : PeerDuties}
    (howes : (s.planner.view key).Owes d) (hsome : d.isEmpty = false) :
    Round S key d s (S.performRound key d lost s) := by
  generalize hview : s.planner.view key = v at howes
  cases howes with
  | nothing => exact absurd hsome (by decide)
  | resolve => exact round_resolve h lost hview
  | dial => exact round_dial h lost hview
  | arm => exact round_arm h lost hview
  | reset id => exact round_reset h lost hview
  | close id => exact round_close h lost hview
  | abandon n => exact round_abandon h lost hview
  | cancel g => exact round_cancel h lost hview

theorem perform_of_owes (h : Sound S s) (lost : Bool) {d : PeerDuties} {fuel : ℕ}
    (howes : (s.planner.view key).Owes d) (hfuel : d.rounds ≤ fuel) :
    ∃ s', S.perform fuel key d lost s = some s' ∧ Worked S key s s' ∧
      (s'.planner.view key).Fits := by
  induction fuel generalizing d s with
  | zero =>
    have hempty : d.isEmpty = true := by
      by_contra hne
      rw [PeerDuties.rounds] at hfuel
      split_ifs at hfuel <;> omega
    refine ⟨s, by rw [Setting.perform, if_pos hempty], Worked.refl h, ?_⟩
    have hd : d = {} := by simpa [PeerDuties.isEmpty] using hempty
    subst hd
    cases howes with
    | nothing hfits => assumption
  | succ fuel ih =>
    rw [Setting.perform]
    split_ifs with hempty
    · refine ⟨s, rfl, Worked.refl h, ?_⟩
      have hd : d = {} := by simpa [PeerDuties.isEmpty] using hempty
      subst hd
      cases howes with
      | nothing hfits => assumption
    · obtain ⟨hworked, howes', hfewer⟩ := round_of_owes h lost howes (Bool.eq_false_iff.mpr hempty)
      obtain ⟨s', hrun, hworked', hfits⟩ := ih hworked.sound howes' (by omega)
      exact ⟨s', hrun, hworked.trans hworked', hfits⟩

theorem PeerDuties.rounds_le (d : PeerDuties) : d.rounds ≤ 3 := by
  rw [PeerDuties.rounds]
  split_ifs <;> omega

/-- An event is delivered to a machine whose books are then what its duties owe. -/
theorem deliver_of_owes (h : Sound S s) (lost : Bool) {fuel : ℕ} (hfuel : 3 ≤ fuel)
    {st : PeerConnectionState} (hst : s.planner.state key = some st) (e : PeerConnectionEvent)
    (howes : View.Owes (st.drive e).2 { s.planner.view key with state := some (st.drive e).1 }) :
    ∃ s', S.deliver fuel key e lost s = some s' ∧ Worked S key s s' ∧
      (s'.planner.view key).Fits := by
  obtain ⟨hworked, hafter, hduties⟩ := worked_reportTo h hst e
  have hrounds : (S.reportTo key e s).2.rounds ≤ fuel := (PeerDuties.rounds_le _).trans hfuel
  obtain ⟨s', hrun, hworked', hfits⟩ := perform_of_owes hworked.sound lost
    (hafter ▸ hduties ▸ howes) hrounds
  exact ⟨s', hrun, hworked.trans hworked', hfits⟩

/-- An event for a peer the table does not hold changes nothing. -/
theorem deliver_of_none (lost : Bool) (fuel : ℕ) (hst : s.planner.state key = none)
    (e : PeerConnectionEvent) : S.deliver fuel key e lost s = some s := by
  rw [Setting.deliver, reportTo_of_none hst, Setting.perform.eq_def]
  simp [PeerDuties.isEmpty]

end WatchingZenoh.PeerPlanner
