import WatchingZenoh.PeerCalls
import WatchingZenoh.Library.Steps

/-! The planner with its host: the calls in any order, each with the host answering as it likes, and
the host taking faces of its own from the counter in between. -/

namespace WatchingZenoh.PeerPlanner

open KeyedRows

inductive Verb (K I : Type)
  | open_ (key : K)
  | openPassive (key : K)
  | inboundUp (key : K) (id : I)
  | inboundDown (key : K)
  | retryDue (key : K) (generation : ℕ)
  | dialEnded (id : I) (dialEnd : DialEnd I)
  | faceDown (id : I)
  | withdraw (zid : DirectoryZid) (node : K)
  | stop (key : K)
  | forget (key : K)
  /-- The host takes faces of its own. -/
  | mint (n : ℕ)

/-- A call with the host's state at it. -/
structure Call (K I σ : Type) where
  verb : Verb K I
  ports : σ

variable {K I T σ : Type} [LinearOrder K] [DecidableEq I]

/-- The actions asked for are kept behind those of the calls before. -/
def Setting.act (S : Setting K I T σ) (fuel : ℕ) (s : Desk K I T σ) :
    Verb K I → Option (Desk K I T σ)
  | .open_ key => (S.open_ fuel key s).map Prod.fst
  | .openPassive key => (S.openPassive fuel key s).map Prod.fst
  | .inboundUp key id => (S.inboundUp fuel key id s).map Prod.fst
  | .inboundDown key => (S.inboundDown fuel key s).map Prod.fst
  | .retryDue key generation => S.retryDue fuel key generation s
  | .dialEnded id dialEnd => (S.dialEnded fuel id dialEnd s).map Prod.fst
  | .faceDown id => (S.faceDown fuel id s).map Prod.fst
  | .withdraw zid node => S.withdraw fuel zid node s
  | .stop key => S.stop fuel key s
  | .forget key => some { s with planner := s.planner.forget key }
  | .mint n => some { s with nextId := s.nextId + n }

def Setting.step (S : Setting K I T σ) (fuel : ℕ) (s : Desk K I T σ) (call : Call K I σ) :
    Option (Desk K I T σ) :=
  S.act fuel { s with ports := call.ports } call.verb

def Setting.run (S : Setting K I T σ) (fuel : ℕ) (s : Desk K I T σ) (calls : List (Call K I σ)) :
    Option (Desk K I T σ) :=
  calls.foldlM (S.step fuel) s

def Desk.new (ports : σ) : Desk K I T σ := ⟨PeerPlanner.new K I, ports, 0, []⟩

variable {S : Setting K I T σ} {s s' : Desk K I T σ} {key : K} {fuel : ℕ}

structure Acted (S : Setting K I T σ) (s s' : Desk K I T σ) : Prop where
  matched : Matched S s'
  asked : Asked S s s'

/-- A call that lets no peer in or out, and learns no node. -/
structure Steady (s s' : Desk K I T σ) : Prop where
  remotes : s'.planner.remotes = s.planner.remotes
  known : ∀ k, s'.planner.state k = none ↔ s.planner.state k = none

omit [DecidableEq I] in
theorem Steady.refl (s : Desk K I T σ) : Steady s s := ⟨rfl, fun _ => Iff.rfl⟩

omit [DecidableEq I] in
theorem Steady.trans {s'' : Desk K I T σ} (h : Steady s s') (h' : Steady s' s'') : Steady s s'' :=
  ⟨h'.remotes.trans h.remotes, fun k => (h'.known k).trans (h.known k)⟩

omit [DecidableEq I] in
theorem Worked.steady (h : Worked S key s s') : Steady s s' := ⟨h.remotes, h.known⟩

omit [DecidableEq I] in
theorem Matched.set_ports (h : Matched S s) (ports : σ) : Matched S { s with ports := ports } :=
  ⟨h.sound.set_ports ports, h.fits⟩

omit [DecidableEq I] in
theorem acted_openWith (h : Matched S s) (hfuel : 3 ≤ fuel) (key : K) {e : PeerConnectionEvent}
    (he : e = .manualStart ∨ e = .manualStartPassive) :
    ∃ s' ok, S.openWith fuel key e s = some (s', ok) ∧ Acted S s s' ∧
      s'.planner.remotes = s.planner.remotes ∧
      ∀ k, s.planner.state k ≠ none → s'.planner.state k = none →
        S.evicted s.planner key = some k := by
  rcases henter : S.enter s.planner key with _ | p
  · refine ⟨{ s with planner := { s.planner with refused := s.planner.refused + 1 } }, false,
      by simp [Setting.openWith, henter], ⟨⟨{ h.sound with }, h.fits⟩, ?_⟩, rfl,
      fun k hk hnone => absurd hnone hk⟩
    exact ⟨le_rfl, ⟨[], by simp, by simp [dialIds]⟩, fun _ => .inl⟩
  · have hentered := entered_of_enter h.sound.entries h.sound.entries_le henter
    obtain ⟨s', hrun, hworked, hmatched⟩ := (hentered.matched h).deliver_manual hfuel false
      (he.elim .inl fun he => .inr (.inl he)) key
    refine ⟨s', true, by simp [Setting.openWith, henter, hrun], ⟨hmatched, ?_⟩,
      hworked.remotes.trans hentered.books.2.2.2, fun k hk hnone => ?_⟩
    · obtain ⟨hnext, hactions, hruns⟩ := hworked.asked
      refine ⟨hnext, hactions, fun id hid => (hruns id hid).imp_left ?_⟩
      rintro ⟨k, hk⟩
      rw [hentered.books.1] at hk
      exact ⟨k, hk⟩
    · have hgone : p.state k = none := (hworked.known k).mp hnone
      by_cases hkey : k = key
      · exact absurd hgone (hkey ▸ hentered.known)
      · rcases hentered.others k hkey with hsame | ⟨-, -, hevicted⟩
        · exact absurd (hsame.symm.trans hgone) hk
        · exact hevicted

omit [DecidableEq I] in
theorem deliver_still (h : Sound S s) (lost : Bool) (hfuel : 3 ≤ fuel) {st : PeerConnectionState}
    (hst : s.planner.state key = some st) (e : PeerConnectionEvent)
    (hduties : (st.drive e).2 = {} ∨ (st.drive e).2 = { resetRetry := true }) :
    ∃ s', S.deliver fuel key e lost s = some s' ∧ Worked S key s s' ∧
      s'.planner.view key = { s.planner.view key with state := some (st.drive e).1 } := by
  obtain ⟨hworked, hafter, hraised⟩ := worked_reportTo h hst e
  obtain ⟨fuel, rfl⟩ := Nat.exists_eq_add_of_le' (Nat.one_le_of_lt hfuel)
  rcases hduties with hduties | hduties
  · refine ⟨(S.reportTo key e s).1, ?_, hworked, hafter⟩
    rw [Setting.deliver, hraised, hduties, Setting.perform, if_pos (by decide)]
  · refine ⟨{ (S.reportTo key e s).1 with
      ports := S.host.retryRestart (S.reportTo key e s).1.ports key }, ?_,
      hworked.trans (worked_set_ports hworked.sound _), hafter⟩
    rw [Setting.deliver, hraised, hduties, Setting.perform, if_neg (by decide)]
    rw [Setting.perform.eq_def]
    rfl

omit [DecidableEq I] in
theorem acted_inboundUp (h : Matched S s) (hfuel : 3 ≤ fuel) (key : K) (id : I) :
    ∃ s' ok, S.inboundUp fuel key id s = some (s', ok) ∧ Acted S s s' ∧ Steady s s' ∧
      (ok = true → row s'.planner.held key = some id) := by
  rw [Setting.inboundUp]
  split_ifs with hst
  · have hview : s.planner.view key = ⟨some .passive, 0, none, none⟩ := by
      rcases (h.fits key).cases hst with ⟨heq, -⟩ | ⟨heq, -⟩ | ⟨heq, -⟩ | ⟨-, -, -, -, heq⟩
      · simp at heq
      · simp at heq
      · simp at heq
      · exact heq
    have hknown : s.planner.state key ≠ none := by simp [hst]
    obtain ⟨hheld, hafter⟩ := worked_hold h.sound hknown id
    obtain ⟨s', hrun, hworked, hview'⟩ := deliver_still hheld.sound false hfuel hst
      .inboundEstablished (.inl rfl)
    simp only [hafter, hview] at hview'
    refine ⟨s', true, by rw [hrun]; rfl, ⟨?_, (hheld.trans hworked).asked⟩,
      (hheld.trans hworked).steady, fun _ => ?_⟩
    · exact (hheld.trans hworked).matched (fun k _ => h.fits k)
        (hview' ▸ View.fits_held id (.inr rfl))
    · exact congrArg View.held hview'
  · exact ⟨s, false, rfl, ⟨h, Asked.refl s⟩, Steady.refl s, by simp⟩

omit [DecidableEq I] in
theorem acted_inboundDown (h : Matched S s) (hfuel : 3 ≤ fuel) (key : K) :
    ∃ s' ok, S.inboundDown fuel key s = some (s', ok) ∧ Acted S s s' ∧ Steady s s' := by
  rw [Setting.inboundDown]
  split_ifs with hst
  · obtain ⟨id, hview⟩ : ∃ id, s.planner.view key = ⟨some .passiveUp, 0, some id, none⟩ := by
      rcases (h.fits key).cases hst with ⟨heq, -⟩ | ⟨-, hview⟩ | ⟨heq, -⟩ | ⟨-, -, heq, -⟩
      · simp at heq
      · exact hview
      · simp at heq
      · simp at heq
    obtain ⟨hdrop, hafter⟩ := worked_drop_held h.sound key [] rfl (by simp)
    rw [List.append_nil] at hdrop
    obtain ⟨s', hrun, hworked, hfits⟩ := deliver_of_owes hdrop.sound false hfuel hst .sessionLost
      (.nothing _ (by
        simp only [hafter, hview]
        exact View.fits_bare (by decide) (by decide) (by decide) (by decide)))
    exact ⟨s', true, by rw [hrun]; rfl,
      ⟨(hdrop.trans hworked).matched (fun k _ => h.fits k) hfits, (hdrop.trans hworked).asked⟩,
      (hdrop.trans hworked).steady⟩
  · exact ⟨s, false, rfl, ⟨h, Asked.refl s⟩, Steady.refl s⟩

omit [DecidableEq I] in
theorem acted_retryDue (h : Matched S s) (hfuel : 3 ≤ fuel) (key : K) (generation : ℕ) :
    ∃ s', S.retryDue fuel key generation s = some s' ∧ Acted S s s' ∧ Steady s s' := by
  rw [Setting.retryDue]
  split_ifs with harmed
  · have hst : s.planner.state key = some .backoff := (h.fits key).armed.mp (by
      rw [PeerPlanner.view, harmed]
      rfl)
    obtain ⟨g, hview⟩ : ∃ g, s.planner.view key = ⟨some .backoff, 0, none, some g⟩ := by
      rcases (h.fits key).cases hst with ⟨heq, -⟩ | ⟨heq, -⟩ | ⟨-, hview⟩ | ⟨-, -, -, heq, -⟩
      · simp at heq
      · simp at heq
      · exact hview
      · simp at heq
    obtain ⟨hdrop, hafter⟩ := worked_drop_armed h.sound key
    obtain ⟨s', hrun, hworked, hfits⟩ := deliver_of_owes hdrop.sound false hfuel hst .retryDue (by
      simp only [hafter, hview]
      exact .resolve)
    exact ⟨s', hrun, ⟨(hdrop.trans hworked).matched (fun k _ => h.fits k) hfits,
      (hdrop.trans hworked).asked⟩, (hdrop.trans hworked).steady⟩
  · exact ⟨s, rfl, ⟨h, Asked.refl s⟩, Steady.refl s⟩

/-! The end of a dial. -/

section DialEnded

omit [LinearOrder K] [DecidableEq I] in
theorem runs_swapRemove {p : PeerPlanner K I} {i : ℕ} {d : I × DialState K}
    (hget : p.dials[i]? = some d) {id : I}
    (h : PeerPlanner.Runs { p with dials := swapRemove p.dials i } id) : p.Runs id := by
  obtain ⟨k, hk⟩ := h
  exact ⟨k, (perm_swapRemove hget).mem_iff.mpr (List.mem_cons_of_mem _ hk)⟩

omit [DecidableEq I] in
theorem Sound.take_dial (h : Sound S s) {i : ℕ} {d : I × DialState K}
    (hget : s.planner.dials[i]? = some d) :
    Sound S { s with planner := { s.planner with dials := swapRemove s.planner.dials i } } :=
  { h with
    faces := fun d' hd' =>
      h.faces d' ((perm_swapRemove hget).mem_iff.mpr (List.mem_cons_of_mem _ hd'))
    dials := (List.nodup_cons.mp (h.dials.perm (perm_swapRemove hget))).2 }

omit [DecidableEq I] in
theorem runningFor_swapRemove {dials : List (I × DialState K)} {i : ℕ} {d : I × DialState K}
    (hget : dials[i]? = some d) (k : K) :
    runningFor k dials = runningFor k (swapRemove dials i) + if d.2 = .running k then 1 else 0 := by
  rw [runningFor, (perm_swapRemove hget).countP_eq, List.countP_cons, runningFor]
  simp

omit [DecidableEq I] in
theorem worked_take_dial (h : Sound S s) {i : ℕ} {id : I}
    (hget : s.planner.dials[i]? = some (id, .running key)) :
    Worked S key s
        { s with planner := { s.planner with dials := swapRemove s.planner.dials i } } ∧
      ({ s.planner with dials := swapRemove s.planner.dials i } : PeerPlanner K I).view key =
        { s.planner.view key with running := (s.planner.view key).running - 1 } := by
  have hcount := runningFor_swapRemove hget
  refine ⟨Worked.quiet (h.take_dial hget) (fun k hk => ?_) Iff.rfl rfl rfl (List.append_nil _).symm
    rfl fun _ hruns => runs_swapRemove hget hruns, ?_⟩
  · have hk' := hcount k
    simp only [DialState.running.injEq, Ne.symm hk, if_false, Nat.add_zero] at hk'
    simp only [PeerPlanner.view, PeerPlanner.state, hk']
  · have hk' := hcount key
    simp only [if_true] at hk'
    simp only [PeerPlanner.view, PeerPlanner.state, hk', Nat.add_sub_cancel]

omit [DecidableEq I] in
theorem acted_take_dial (h : Matched S s) {i : ℕ} {d : I × DialState K}
    (hget : s.planner.dials[i]? = some d) (hd : ∀ k, d.2 ≠ .running k) :
    Acted S s { s with planner := { s.planner with dials := swapRemove s.planner.dials i } } := by
  refine ⟨⟨h.sound.take_dial hget, fun k => ?_⟩,
    ⟨le_rfl, ⟨[], by simp, by simp [dialIds]⟩, fun id hid => .inl (runs_swapRemove hget hid)⟩⟩
  have hk := runningFor_swapRemove hget k
  simp only [hd k, if_false, Nat.add_zero] at hk
  have hfits := h.fits k
  simp only [PeerPlanner.view, PeerPlanner.state, hk] at hfits ⊢
  exact hfits

omit [DecidableEq I] in
theorem Matched.view_running (h : Matched S s) {id : I} (hmem : (id, .running key) ∈ s.planner.dials) :
    s.planner.view key = ⟨some .connecting, 1, none, none⟩ := by
  have hpos : 0 < (s.planner.view key).running := List.countP_pos_iff.mpr ⟨_, hmem, by simp⟩
  have hst : (s.planner.view key).state = some .connecting := by
    by_contra hst
    rw [(h.fits key).running, if_neg hst] at hpos
    exact lt_irrefl _ hpos
  rcases (h.fits key).cases hst with ⟨-, hview⟩ | ⟨heq, -⟩ | ⟨heq, -⟩ | ⟨heq, -⟩
  · exact hview
  · simp at heq
  · simp at heq
  · exact absurd rfl heq

omit [DecidableEq I] in
theorem sound_learnRemote (h : Sound S s) (key : K) (remote : Option DirectoryZid) :
    Sound S { s with planner := S.learnRemote s.planner key remote } ∧
      (∀ k, (S.learnRemote s.planner key remote).view k = s.planner.view k) ∧
      Asked S s { s with planner := S.learnRemote s.planner key remote } := by
  rcases remote with _ | z
  · exact ⟨h, fun _ => rfl, Asked.refl s⟩
  · exact ⟨{ h with }, fun _ => rfl, ⟨le_rfl, ⟨[], by simp, by simp [dialIds]⟩, fun _ => .inl⟩⟩

/-- The peer of a running dial holds the face the dial ended with. -/
def DialEnd.heldAs (id : I) : DialEnd I → Option I
  | .established _ => some id
  | .alreadyHeld held _ => some held
  | _ => none

/-- The node the session of a dial named, where it came to a session. -/
def DialEnd.named : DialEnd I → Option (Option DirectoryZid)
  | .established remote => some remote
  | .alreadyHeld _ remote => some remote
  | _ => none

/-- What the end of a dial leaves of the nodes the sessions named. -/
structure Learned (S : Setting K I T σ) (key : K) (dialEnd : DialEnd I) (s s' : Desk K I T σ) :
    Prop where
  remotes : s'.planner.remotes =
    (dialEnd.named.elim s.planner fun remote => S.learnRemote s.planner key remote).remotes
  known : ∀ k, s'.planner.state k = none ↔ s.planner.state k = none

omit [DecidableEq I] in
/-- The end of a dial its peer wants: the face is held, or the machine learns why not. -/
theorem acted_takeEnd (h : Matched S s) (hfuel : 3 ≤ fuel) {i : ℕ} {id : I}
    (hget : s.planner.dials[i]? = some (id, .running key)) (dialEnd : DialEnd I) :
    ∃ s', S.deliver fuel key
        (S.takeEnd id key { s.planner with dials := swapRemove s.planner.dials i } dialEnd).2.1 false
        { s with planner :=
          (S.takeEnd id key { s.planner with dials := swapRemove s.planner.dials i } dialEnd).1 } =
          some s' ∧ Acted S s s' ∧ Learned S key dialEnd s s' ∧
      ∀ face, dialEnd.heldAs id = some face → row s'.planner.held key = some face := by
  have hview := h.view_running (List.mem_of_getElem? hget)
  have hst : s.planner.state key = some .connecting := congrArg View.state hview
  obtain ⟨htake, htaken⟩ := worked_take_dial h.sound hget
  rw [hview] at htaken
  have hheld : ∀ face remote, ∃ s', S.deliver fuel key .dialEstablished false
      { s with planner := S.learnRemote (S.hold
          { s.planner with dials := swapRemove s.planner.dials i } key face) key remote } = some s' ∧
      Acted S s s' ∧ (s'.planner.remotes = (S.learnRemote s.planner key remote).remotes ∧
        ∀ k, s'.planner.state k = none ↔ s.planner.state k = none) ∧
      row s'.planner.held key = some face := by
    intro face remote
    have hknown : s.planner.state key ≠ none := by simp [hst]
    obtain ⟨hhold, hholds⟩ := worked_hold htake.sound hknown face
    obtain ⟨hlearn, hviews, hasked⟩ := sound_learnRemote hhold.sound key remote
    obtain ⟨s', hrun, hworked, hview'⟩ := deliver_still hlearn false hfuel
      ((congrArg View.state (hviews key)).trans hst) .dialEstablished (.inr rfl)
    rw [hviews, hholds, htaken] at hview'
    have hchain := htake.trans hhold
    have hremotes : (S.learnRemote (S.hold { s.planner with
        dials := swapRemove s.planner.dials i } key face) key remote).remotes =
        (S.learnRemote s.planner key remote).remotes := by
      cases remote <;> rfl
    refine ⟨s', hrun, ⟨⟨hworked.sound, fun k => ?_⟩, ?_⟩,
      ⟨hworked.remotes.trans hremotes, fun k => ?_⟩, congrArg View.held hview'⟩
    · by_cases hk : k = key
      · rw [hk, hview']
        exact View.fits_held face (.inl rfl)
      · rw [hworked.others k hk, hviews k, hchain.others k hk]
        exact h.fits k
    · exact (hchain.asked.trans hasked).trans hworked.asked
    · have hstate := congrArg View.state (hviews k)
      exact (hworked.known k).trans ((iff_of_eq (congrArg (· = none) hstate)).trans (hchain.known k))
  have hfail : ∀ e, View.Owes (PeerConnectionState.connecting.drive e).2
      (⟨some (PeerConnectionState.connecting.drive e).1, 0, none, none⟩ : View I) →
      ∃ s', S.deliver fuel key e false
        { s with planner := { s.planner with dials := swapRemove s.planner.dials i } } = some s' ∧
        Acted S s s' ∧ Steady s s' := by
    intro e howes
    obtain ⟨s', hrun, hworked, hfits⟩ := deliver_of_owes htake.sound false hfuel hst e
      (by simpa only [htaken] using howes)
    exact ⟨s', hrun, ⟨(htake.trans hworked).matched (fun k _ => h.fits k) hfits,
      (htake.trans hworked).asked⟩, (htake.trans hworked).steady⟩
  cases dialEnd with
  | established remote =>
    obtain ⟨s', hrun, hacted, hlearned, hrow⟩ := hheld id remote
    exact ⟨s', hrun, hacted, ⟨hlearned.1, hlearned.2⟩, fun face hface => by cases hface; exact hrow⟩
  | alreadyHeld face remote =>
    obtain ⟨s', hrun, hacted, hlearned, hrow⟩ := hheld face remote
    exact ⟨s', hrun, hacted, ⟨hlearned.1, hlearned.2⟩, fun face hface => by cases hface; exact hrow⟩
  | noSlot =>
    obtain ⟨s', hrun, hacted, hsteady⟩ := hfail .dialNoSlot
      (.nothing _ (View.fits_bare (by decide) (by decide) (by decide) (by decide)))
    exact ⟨s', hrun, hacted, ⟨hsteady.remotes, hsteady.known⟩, by simp [DialEnd.heldAs]⟩
  | mismatch =>
    obtain ⟨s', hrun, hacted, hsteady⟩ := hfail .dialMismatch
      (.nothing _ (View.fits_bare (by decide) (by decide) (by decide) (by decide)))
    exact ⟨s', hrun, hacted, ⟨hsteady.remotes, hsteady.known⟩, by simp [DialEnd.heldAs]⟩
  | failed =>
    obtain ⟨s', hrun, hacted, hsteady⟩ := hfail .dialFailed .arm
    exact ⟨s', hrun, hacted, ⟨hsteady.remotes, hsteady.known⟩, by simp [DialEnd.heldAs]⟩

theorem acted_dialEnded (h : Matched S s) (hfuel : 3 ≤ fuel) (id : I) (dialEnd : DialEnd I) :
    ∃ s' answer, S.dialEnded fuel id dialEnd s = some (s', answer) ∧ Acted S s s' ∧
      (¬ s.planner.Runs id →
        s'.planner.entries = s.planner.entries ∧ s'.planner.remotes = s.planner.remotes) ∧
      ∀ key, (id, .running key) ∈ s.planner.dials → Learned S key dialEnd s s' ∧
        ∀ face, dialEnd.heldAs id = some face → row s'.planner.held key = some face := by
  rcases findIdx_cases s.planner.dials id with ⟨hidx, hnone⟩ | ⟨i, d, hidx, hget, hrow⟩
  · refine ⟨s, none, by simp [Setting.dialEnded, hidx], ⟨h, Asked.refl s⟩, fun _ => ⟨rfl, rfl⟩,
      fun key hmem => ?_⟩
    exact absurd hmem (row_eq_none_iff.mp hnone _)
  · have hunique : ∀ key, (id, .running key) ∈ s.planner.dials → d = .running key := fun key hmem => by
      have hrow' := (row_eq_some_iff h.sound.dials).mpr hmem
      rw [hrow] at hrow'
      exact Option.some.inj hrow'
    rcases d with key | _ | _
    · obtain ⟨s', hrun, hacted, hlearned⟩ := acted_takeEnd h hfuel hget dialEnd
      refine ⟨s', _, by simp only [Setting.dialEnded, hidx, hget, Option.map_some, hrun]; rfl, hacted,
        fun hnot => absurd ⟨key, List.mem_of_getElem? hget⟩ hnot, fun key' hmem => ?_⟩
      have hkey := hunique key' hmem
      cases hkey
      exact hlearned
    · refine ⟨_, _, by simp only [Setting.dialEnded, hidx, hget, Option.map_some]; rfl,
        acted_take_dial h hget (by simp), fun _ => ⟨rfl, rfl⟩, fun key hmem => ?_⟩
      exact absurd (hunique key hmem) (by simp)
    · refine ⟨_, _, by simp only [Setting.dialEnded, hidx, hget, Option.map_some]; rfl,
        acted_take_dial h hget (by simp), fun _ => ⟨rfl, rfl⟩, fun key hmem => ?_⟩
      exact absurd (hunique key hmem) (by simp)

end DialEnded

end WatchingZenoh.PeerPlanner
