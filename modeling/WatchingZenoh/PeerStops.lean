import WatchingZenoh.PeerSystem

/-! A peer is stopped. Its machine is idle afterwards, the face it was held as is to be closed, the
dial that ran for it is not wanted any more, and its retry is not armed. -/

namespace WatchingZenoh.PeerPlanner

open KeyedRows

variable {K I T σ : Type} [LinearOrder K]
variable {S : Setting K I T σ} {s s' : Desk K I T σ} {key : K} {fuel : ℕ}

structure Stopped (S : Setting K I T σ) (key : K) (s s' : Desk K I T σ) : Prop where
  worked : Worked S key s s'
  matched : Matched S s'
  idle : s.planner.state key ≠ none → s'.planner.state key = some .idle
  dials : s'.planner.dials = markDials key .abandoned s.planner.dials
  actions : s'.actions = s.actions ++ (row s.planner.held key).toList.map .close

theorem markDials_of_runningFor (dials : List (I × DialState K)) (mark : DialState K)
    (h : runningFor key dials = 0) : markDials key mark dials = dials := by
  rw [runningFor, List.countP_eq_zero] at h
  have hsame : ∀ d ∈ dials, (if d.2 = .running key then (d.1, mark) else d) = d := fun d hd =>
    if_neg (by simpa using h d hd)
  rw [markDials, List.map_congr_left hsame, List.map_id']

theorem reportTo_books (key : K) (e : PeerConnectionEvent) (s : Desk K I T σ) :
    (S.reportTo key e s).1.planner.dials = s.planner.dials ∧
      (S.reportTo key e s).1.planner.held = s.planner.held ∧
      (S.reportTo key e s).1.actions = s.actions := by
  rw [Setting.reportTo, Setting.report]
  rcases s.planner.state key with _ | st <;> exact ⟨rfl, rfl, rfl⟩

theorem perform_once {d : PeerDuties} (hd : d.isEmpty = false) (lost : Bool) (hfuel : 1 ≤ fuel)
    (hlast : (S.performRound key d lost s).2 = {}) :
    S.perform fuel key d lost s = some (S.performRound key d lost s).1 := by
  obtain ⟨fuel, rfl⟩ := Nat.exists_eq_add_of_le' hfuel
  rw [Setting.perform, if_neg (by simp [hd])]
  dsimp only
  rw [hlast, Setting.perform.eq_def, if_pos (by decide)]

theorem perform_stop {d : PeerDuties} (hfuel : 1 ≤ fuel) {v : View I}
    (hview : s.planner.view key = v) (howes : v.Owes d) (hidle : v.state = some .idle) :
    ∃ s', S.perform fuel key d false s = some s' ∧ s'.planner.entries = s.planner.entries ∧
      s'.planner.dials = markDials key .abandoned s.planner.dials ∧
      s'.actions = s.actions ++ (row s.planner.held key).toList.map .close := by
  have hrunning : runningFor key s.planner.dials = v.running := congrArg View.running hview
  have hheld : row s.planner.held key = v.held := congrArg View.held hview
  cases howes with
  | nothing v hfits =>
    have hbare : v = ⟨some .idle, 0, none, none⟩ := by
      rcases hfits.cases hidle with ⟨heq, -⟩ | ⟨heq, -⟩ | ⟨heq, -⟩ | ⟨-, -, -, -, heq⟩
      · simp at heq
      · simp at heq
      · simp at heq
      · exact heq
    subst hbare
    refine ⟨s, by rw [Setting.perform.eq_def, if_pos (by decide)], rfl, ?_, ?_⟩
    · exact (markDials_of_runningFor _ _ hrunning).symm
    · rw [hheld]
      simp
  | resolve => simp at hidle
  | dial => simp at hidle
  | arm => simp at hidle
  | reset id => simp at hidle
  | close id =>
    have hround := performRound_close (S := S) false hheld
    refine ⟨_, perform_once (by decide) false hfuel (by rw [hround]), ?_, ?_, ?_⟩
    · rw [hround]
    · rw [hround]
      exact (markDials_of_runningFor _ _ hrunning).symm
    · rw [hround, hheld]
      rfl
  | abandon n =>
    refine ⟨_, perform_once (by decide) false hfuel rfl, rfl, rfl, ?_⟩
    rw [hheld]
    exact (List.append_nil _).symm
  | cancel g =>
    refine ⟨_, perform_once (by decide) false hfuel rfl, rfl, ?_, ?_⟩
    · exact (markDials_of_runningFor _ _ hrunning).symm
    · rw [hheld]
      exact (List.append_nil _).symm

theorem Matched.stop (h : Matched S s) (hfuel : 3 ≤ fuel) (key : K) :
    ∃ s', S.stop fuel key s = some s' ∧ Stopped S key s s' := by
  obtain ⟨s', hrun, hworked, hmatched⟩ := h.deliver_manual hfuel false (.inr (.inr rfl)) key
  have hstopped : (s.planner.state key ≠ none → s'.planner.state key = some .idle) ∧
      s'.planner.dials = markDials key .abandoned s.planner.dials ∧
      s'.actions = s.actions ++ (row s.planner.held key).toList.map .close := by
    rcases hst : s.planner.state key with _ | st
    · have hbare := (h.fits key).of_none hst
      have hrunning : runningFor key s.planner.dials = 0 := congrArg View.running hbare
      have hheld : row s.planner.held key = none := congrArg View.held hbare
      rw [deliver_of_none false fuel hst] at hrun
      cases hrun
      refine ⟨by simp, (markDials_of_runningFor _ _ hrunning).symm, ?_⟩
      rw [hheld]
      simp
    · obtain ⟨-, hafter, hduties⟩ := worked_reportTo h.sound hst .manualStop
      obtain ⟨hdials, hheld, hactions⟩ := reportTo_books (S := S) key .manualStop s
      have hidle : (st.drive .manualStop).1 = .idle := by cases st <;> rfl
      obtain ⟨s'', hperform, hentries, hmarked, hclosed⟩ := perform_stop (S := S)
        (Nat.one_le_of_lt hfuel) hafter ((h.fits key).owes_manual hst (.inr (.inr rfl)))
        (congrArg some hidle)
      rw [Setting.deliver, hduties, hperform] at hrun
      cases hrun
      refine ⟨fun _ => ?_, by rw [hmarked, hdials], by rw [hclosed, hactions, hheld]⟩
      rw [PeerPlanner.state, hentries]
      exact (congrArg View.state hafter).trans (congrArg some hidle)
  exact ⟨s', hrun, hworked, hmatched, hstopped.1, hstopped.2.1, hstopped.2.2⟩

theorem Stopped.not_runs (h : Stopped S key s s') (hs : Sound S s) {id : I}
    (hmem : (id, .running key) ∈ s.planner.dials) [DecidableEq I] : ¬ s'.planner.Runs id := by
  rintro ⟨k, hk⟩
  rw [h.dials] at hk
  obtain ⟨d, hd, heq⟩ := List.mem_map.mp hk
  split_ifs at heq with hrun
  · simp at heq
  · subst heq
    have hrow := (row_eq_some_iff hs.dials).mpr hmem
    rw [(row_eq_some_iff hs.dials).mpr hd] at hrow
    cases hrow
    exact hrun rfl

/-- What stopping peers one after the other leaves of a planner. -/
structure Withdrawn (S : Setting K I T σ) (keys : List K) (s s' : Desk K I T σ) : Prop where
  matched : Matched S s'
  asked : Asked S s s'
  steady : Steady s s'
  idle : ∀ k, s.planner.state k ≠ none → k ∈ keys ∨ s.planner.state k = some .idle →
    s'.planner.state k = some .idle
  closed : ∃ done, s'.actions = s.actions ++ done ∧
    ∀ k ∈ keys, ∀ id, row s.planner.held k = some id → .close id ∈ done
  abandoned : ∀ id, (id, .abandoned) ∈ s.planner.dials → (id, .abandoned) ∈ s'.planner.dials
  dropped : ∀ k ∈ keys, ∀ id, (id, .running k) ∈ s.planner.dials →
    (id, .abandoned) ∈ s'.planner.dials

theorem Stopped.mem_dials (h : Stopped S key s s') {d : I × DialState K} (hd : d ∈ s.planner.dials) :
    (if d.2 = .running key then (d.1, .abandoned) else d) ∈ s'.planner.dials := by
  rw [h.dials]
  exact List.mem_map_of_mem hd

theorem Matched.stops (h : Matched S s) (hfuel : 3 ≤ fuel) (keys : List K) :
    ∃ s', keys.foldlM (fun s key => S.stop fuel key s) s = some s' ∧ Withdrawn S keys s s' := by
  induction keys generalizing s with
  | nil =>
    refine ⟨s, rfl, h, Asked.refl s, Steady.refl s, fun k _ hk => ?_, ⟨[], by simp, by simp⟩,
      fun _ => id, by simp⟩
    exact hk.resolve_left (by simp)
  | cons key keys ih =>
    obtain ⟨mid, hmid, hstop⟩ := h.stop hfuel key
    obtain ⟨s', hrun, hrest⟩ := ih hstop.matched
    have hsteady := hstop.worked.steady
    refine ⟨s', by rw [List.foldlM_cons, hmid]; exact hrun, hrest.matched,
      hstop.worked.asked.trans hrest.asked, hsteady.trans hrest.steady, fun k hk hidle => ?_, ?_,
      fun id hid => ?_, fun k hk id hid => ?_⟩
    · refine hrest.idle k (fun hnone => hk ((hsteady.known k).mp hnone)) ?_
      by_cases hkey : k = key
      · exact .inr (hkey ▸ hstop.idle (hkey ▸ hk))
      · have hsame : mid.planner.state k = s.planner.state k :=
          congrArg View.state (hstop.worked.others k hkey)
        rw [hsame]
        exact hidle.imp_left fun hmem => (List.mem_cons.mp hmem).resolve_left hkey
    · obtain ⟨done, hdone, hclosed⟩ := hrest.closed
      refine ⟨(row s.planner.held key).toList.map .close ++ done,
        by rw [hdone, hstop.actions, List.append_assoc], fun k hk id hid => ?_⟩
      by_cases hkey : k = key
      · subst hkey
        rw [hid]
        simp
      · have hsame : row mid.planner.held k = row s.planner.held k :=
          congrArg View.held (hstop.worked.others k hkey)
        exact List.mem_append_right _ (hclosed k ((List.mem_cons.mp hk).resolve_left hkey) id
          (hsame.trans hid))
    · exact hrest.abandoned id (by simpa using hstop.mem_dials hid)
    · have hmem := hstop.mem_dials hid
      by_cases hkey : k = key
      · subst hkey
        exact hrest.abandoned id (by simpa using hmem)
      · exact hrest.dropped k ((List.mem_cons.mp hk).resolve_left hkey) id
          (by simpa [hkey] using hmem)

end WatchingZenoh.PeerPlanner
