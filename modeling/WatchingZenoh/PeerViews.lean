import WatchingZenoh.PeerPlanner

/-! What the planner holds for one peer: the state of its machine, how many dials run for it, the face
it is held as and its armed retry. Working for one peer leaves what is held for the others, and the
books of a peer match its machine once its duties are performed. -/

namespace WatchingZenoh.PeerPlanner

open KeyedRows

@[ext]
structure View (I : Type) where
  state : Option PeerConnectionState
  running : ℕ
  held : Option I
  armed : Option ℕ

structure View.Fits {I : Type} (v : View I) : Prop where
  running : v.running = if v.state = some .connecting then 1 else 0
  held : v.held.isSome ↔ v.state = some .established ∨ v.state = some .passiveUp
  armed : v.armed.isSome ↔ v.state = some .backoff

/-- The books of a peer whose machine has asked for duties that are not performed yet. -/
inductive View.Owes {I : Type} : PeerDuties → View I → Prop
  | nothing (v : View I) (h : v.Fits) : Owes {} v
  | resolve : Owes { resolve := true } ⟨some .resolving, 0, none, none⟩
  | dial : Owes { dial := true } ⟨some .connecting, 0, none, none⟩
  | arm : Owes { armRetry := true } ⟨some .backoff, 0, none, none⟩
  | reset (id : I) : Owes { resetRetry := true } ⟨some .established, 0, some id, none⟩
  | close (id : I) : Owes { closeSession := true } ⟨some .idle, 0, some id, none⟩
  | abandon (n : ℕ) : Owes { abandonDial := true } ⟨some .idle, n, none, none⟩
  | cancel (g : ℕ) : Owes { cancelRetry := true } ⟨some .idle, 0, none, some g⟩

section Planner

variable {K I T σ : Type} [LinearOrder K]

def runningFor (key : K) (dials : List (I × DialState K)) : ℕ :=
  dials.countP fun d => d.2 = .running key

def PeerPlanner.view (p : PeerPlanner K I) (key : K) : View I where
  state := p.state key
  running := runningFor key p.dials
  held := row p.held key
  armed := row p.armed key

def PeerPlanner.Runs (p : PeerPlanner K I) (id : I) : Prop := ∃ key, (id, .running key) ∈ p.dials

def dialIds (actions : List (PeerAction K I T)) : List I :=
  actions.filterMap fun a =>
    match a with
    | .dial id _ _ => some id
    | _ => none

/-- The generation of the retry last asked for on behalf of a peer. -/
def lastRetry (key : K) (actions : List (PeerAction K I T)) : Option ℕ :=
  (actions.filterMap fun a =>
    match a with
    | .retry k generation _ _ => if k = key then some generation else none
    | _ => none).getLast?

/-- The tables are within their bounds, and the rows for a peer are there only while it is in the
table. -/
structure Sound (S : Setting K I T σ) (s : Desk K I T σ) : Prop where
  entries : Keyed s.planner.entries
  entries_le : s.planner.entries.length ≤ S.N
  held : Keyed s.planner.held
  held_le : s.planner.held.length ≤ S.N
  held_sub : ∀ k, row s.planner.held k ≠ none → s.planner.state k ≠ none
  armed : Keyed s.planner.armed
  armed_le : s.planner.armed.length ≤ S.N
  armed_sub : ∀ k, row s.planner.armed k ≠ none → s.planner.state k ≠ none
  faces : ∀ d ∈ s.planner.dials, ∃ n < s.nextId, d.1 = S.face n
  dials : Keyed s.planner.dials
  retried : ∀ k g, row s.planner.armed k = some g → lastRetry k s.actions = some g

/-- What a call asks for: the dials are under the faces the counter went through. -/
structure Asked (S : Setting K I T σ) (s s' : Desk K I T σ) : Prop where
  nextId : s.nextId ≤ s'.nextId
  actions : ∃ done, s'.actions = s.actions ++ done ∧
    dialIds done = (List.range' s.nextId (s'.nextId - s.nextId)).map S.face
  runs : ∀ id, s'.planner.Runs id →
    s.planner.Runs id ∨ ∃ n, s.nextId ≤ n ∧ n < s'.nextId ∧ id = S.face n

structure Worked (S : Setting K I T σ) (key : K) (s s' : Desk K I T σ) : Prop where
  sound : Sound S s'
  others : ∀ k ≠ key, s'.planner.view k = s.planner.view k
  known : ∀ k, s'.planner.state k = none ↔ s.planner.state k = none
  remotes : s'.planner.remotes = s.planner.remotes
  asked : Asked S s s'

variable {S : Setting K I T σ} {s s' s'' : Desk K I T σ} {key : K}

omit [LinearOrder K] in
theorem Asked.refl (s : Desk K I T σ) : Asked S s s :=
  ⟨le_rfl, ⟨[], by simp, by simp [dialIds]⟩, fun _ => .inl⟩

omit [LinearOrder K] in
theorem Asked.trans (h : Asked S s s') (h' : Asked S s' s'') : Asked S s s'' := by
  obtain ⟨done, hdone, hids⟩ := h.actions
  obtain ⟨done', hdone', hids'⟩ := h'.actions
  refine ⟨h.nextId.trans h'.nextId, ⟨done ++ done', by rw [hdone', hdone, List.append_assoc], ?_⟩,
    fun id hid => ?_⟩
  · have hsplit : List.range' s.nextId (s''.nextId - s.nextId) =
        List.range' s.nextId (s'.nextId - s.nextId) ++
          List.range' s'.nextId (s''.nextId - s'.nextId) := by
      obtain ⟨m, hm⟩ := Nat.exists_eq_add_of_le h.nextId
      obtain ⟨n, hn⟩ := Nat.exists_eq_add_of_le h'.nextId
      rw [hn, hm, Nat.add_assoc, Nat.add_sub_cancel_left, Nat.add_sub_cancel_left, ← Nat.add_assoc,
        Nat.add_sub_cancel_left, List.range'_append_1]
    rw [dialIds, List.filterMap_append, ← dialIds, ← dialIds, hids, hids', hsplit, List.map_append]
  · rcases h'.runs id hid with hid | ⟨n, hn, hn', heq⟩
    · rcases h.runs id hid with hid | ⟨n, hn, hn', heq⟩
      · exact .inl hid
      · exact .inr ⟨n, hn, hn'.trans_le h'.nextId, heq⟩
    · exact .inr ⟨n, h.nextId.trans hn, hn', heq⟩

theorem Worked.refl (h : Sound S s) : Worked S key s s where
  sound := h
  others := fun _ _ => rfl
  known := fun _ => Iff.rfl
  remotes := rfl
  asked := Asked.refl s

theorem Worked.trans (h : Worked S key s s') (h' : Worked S key s' s'') : Worked S key s s'' where
  sound := h'.sound
  others := fun k hk => (h'.others k hk).trans (h.others k hk)
  known := fun k => (h'.known k).trans (h.known k)
  remotes := h'.remotes.trans h.remotes
  asked := h.asked.trans h'.asked

theorem Worked.quiet (hsound : Sound S s') (hothers : ∀ k ≠ key, s'.planner.view k = s.planner.view k)
    (hself : s'.planner.state key = none ↔ s.planner.state key = none)
    (hremotes : s'.planner.remotes = s.planner.remotes) (hnext : s'.nextId = s.nextId)
    {done : List (PeerAction K I T)} (hactions : s'.actions = s.actions ++ done)
    (hids : dialIds done = []) (hruns : ∀ id, s'.planner.Runs id → s.planner.Runs id) :
    Worked S key s s' where
  sound := hsound
  others := hothers
  known := fun k => by
    by_cases hk : k = key
    · rw [hk, hself]
    · have hstate : s'.planner.state k = s.planner.state k := congrArg View.state (hothers k hk)
      rw [hstate]
  remotes := hremotes
  asked :=
    { nextId := hnext.ge
      actions := ⟨done, hactions, by rw [hids, hnext]; simp⟩
      runs := fun id hid => .inl (hruns id hid) }

/-! The changes of one peer's books. -/

theorem Sound.set_ports (h : Sound S s) (ports : σ) : Sound S { s with ports := ports } :=
  { h with }

theorem worked_set_ports (h : Sound S s) (ports : σ) : Worked S key s { s with ports := ports } :=
  Worked.quiet (h.set_ports ports) (fun _ _ => rfl) Iff.rfl rfl rfl (List.append_nil _).symm rfl
    fun _ => id

/-- An event reported to a machine moves it, and nothing else. -/
theorem worked_reportTo (h : Sound S s) {st : PeerConnectionState}
    (hst : s.planner.state key = some st) (e : PeerConnectionEvent) :
    Worked S key s (S.reportTo key e s).1 ∧
      (S.reportTo key e s).1.planner.view key =
        { s.planner.view key with state := some (st.drive e).1 } ∧
      (S.reportTo key e s).2 = (st.drive e).2 := by
  have hwrote := wrote_setRow h.entries h.entries_le (k := key)
    (.inl (by rw [← PeerPlanner.state, hst]; simp)) (st.drive e).1
  have hreport : S.reportTo key e s =
      ({ s with planner := { s.planner with
          entries := (setRow S.N s.planner.entries key (st.drive e).1).1 } }, (st.drive e).2) := by
    simp [Setting.reportTo, Setting.report, hst]
  have hstate : ∀ k, row (setRow S.N s.planner.entries key (st.drive e).1).1 k = none ↔
      s.planner.state k = none := fun k => by
    by_cases hk : k = key
    · rw [hk, hwrote.row_self, hst]
      simp
    · rw [hwrote.row_ne k hk, PeerPlanner.state]
  rw [hreport]
  refine ⟨Worked.quiet ?_ (fun k hk => ?_) (hstate key) rfl rfl (List.append_nil _).symm rfl
    fun _ => id, ?_, rfl⟩
  · exact
      { h with
        entries := hwrote.keyed
        entries_le := hwrote.length_le
        held_sub := fun k hk hnone => h.held_sub k hk ((hstate k).mp hnone)
        armed_sub := fun k hk hnone => h.armed_sub k hk ((hstate k).mp hnone) }
  · simp only [PeerPlanner.view, PeerPlanner.state, hwrote.row_ne k hk]
  · simp only [PeerPlanner.view, PeerPlanner.state, hwrote.row_self]

theorem reportTo_of_none (hst : s.planner.state key = none) (e : PeerConnectionEvent) :
    S.reportTo key e s = (s, {}) := by
  simp [Setting.reportTo, Setting.report, hst]

theorem worked_drop_armed (h : Sound S s) (key : K) :
    Worked S key s { s with planner := { s.planner with armed := dropRow s.planner.armed key } } ∧
      ({ s.planner with armed := dropRow s.planner.armed key } : PeerPlanner K I).view key =
        { s.planner.view key with armed := none } := by
  have hdrop := dropped_dropRow h.armed key
  refine ⟨Worked.quiet ?_ (fun k hk => ?_) Iff.rfl rfl rfl (List.append_nil _).symm rfl
    fun _ => id, ?_⟩
  · refine { h with armed := hdrop.keyed, armed_le := hdrop.length_le.trans h.armed_le,
                    armed_sub := fun k hk => ?_, retried := fun k g hg => ?_ }
    · by_cases hkey : k = key
      · exact absurd (hkey ▸ hdrop.row_self) hk
      · exact h.armed_sub k (hdrop.row_ne k hkey ▸ hk)
    · by_cases hkey : k = key
      · rw [hkey, hdrop.row_self] at hg
        exact absurd hg (by simp)
      · exact h.retried k g (hdrop.row_ne k hkey ▸ hg)
  · simp only [PeerPlanner.view, PeerPlanner.state, hdrop.row_ne k hk]
  · simp only [PeerPlanner.view, PeerPlanner.state, hdrop.row_self]

theorem worked_drop_held (h : Sound S s) (key : K) (done : List (PeerAction K I T))
    (hids : dialIds done = [])
    (hretry : ∀ k, lastRetry k (s.actions ++ done) = lastRetry k s.actions) :
    Worked S key s
        { s with
          planner := { s.planner with held := dropRow s.planner.held key }
          actions := s.actions ++ done } ∧
      ({ s.planner with held := dropRow s.planner.held key } : PeerPlanner K I).view key =
        { s.planner.view key with held := none } := by
  have hdrop := dropped_dropRow h.held key
  refine ⟨Worked.quiet ?_ (fun k hk => ?_) Iff.rfl rfl rfl rfl hids fun _ => id, ?_⟩
  · refine { h with held := hdrop.keyed, held_le := hdrop.length_le.trans h.held_le,
                    held_sub := fun k hk => ?_,
                    retried := fun k g hg => (hretry k).trans (h.retried k g hg) }
    by_cases hkey : k = key
    · exact absurd (hkey ▸ hdrop.row_self) hk
    · exact h.held_sub k (hdrop.row_ne k hkey ▸ hk)
  · simp only [PeerPlanner.view, PeerPlanner.state, hdrop.row_ne k hk]
  · simp only [PeerPlanner.view, PeerPlanner.state, hdrop.row_self]

theorem worked_hold (h : Sound S s) (hst : s.planner.state key ≠ none) (id : I) :
    Worked S key s { s with planner := S.hold s.planner key id } ∧
      (S.hold s.planner key id).view key = { s.planner.view key with held := some id } := by
  have hroom : row s.planner.held key ≠ none ∨ s.planner.held.length < S.N := by
    by_cases hrow : row s.planner.held key = none
    · exact .inr (length_lt_of_missing h.held h.entries_le h.held_sub hrow hst)
    · exact .inl hrow
  have hwrote := wrote_setRow h.held h.held_le hroom id
  refine ⟨Worked.quiet ?_ (fun k hk => ?_) Iff.rfl rfl rfl (List.append_nil _).symm rfl
    fun _ hruns => hruns, ?_⟩
  · refine { h with held := hwrote.keyed, held_le := hwrote.length_le, held_sub := fun k hk => ?_ }
    by_cases hkey : k = key
    · exact hkey ▸ hst
    · exact h.held_sub k (hwrote.row_ne k hkey ▸ hk)
  · simp only [Setting.hold, PeerPlanner.view, PeerPlanner.state, hwrote.row_ne k hk]
  · simp only [Setting.hold, PeerPlanner.view, PeerPlanner.state, hwrote.row_self]

theorem worked_arm (h : Sound S s) {key : K} (hst : s.planner.state key ≠ none) (lost : Bool) :
    Worked S key s (S.performArm key { armRetry := true } lost s) ∧
      (S.performArm key { armRetry := true } lost s).planner.view key =
        { s.planner.view key with armed := some s.planner.nextGeneration } := by
  have hroom : row s.planner.armed key ≠ none ∨ s.planner.armed.length < S.N := by
    by_cases hrow : row s.planner.armed key = none
    · exact .inr (length_lt_of_missing h.armed h.entries_le h.armed_sub hrow hst)
    · exact .inl hrow
  have hwrote := wrote_setRow h.armed h.armed_le hroom s.planner.nextGeneration
  rw [Setting.performArm, if_pos rfl]
  refine ⟨Worked.quiet ?_ (fun k hk => ?_) Iff.rfl rfl rfl rfl rfl fun _ hruns => hruns, ?_⟩
  · refine { h with armed := hwrote.keyed, armed_le := hwrote.length_le, armed_sub := fun k hk => ?_,
                    retried := fun k g hg => ?_ }
    · by_cases hkey : k = key
      · exact hkey ▸ hst
      · exact h.armed_sub k (hwrote.row_ne k hkey ▸ hk)
    · by_cases hkey : k = key
      · rw [hkey, hwrote.row_self] at hg
        cases hg
        simp [lastRetry, hkey]
      · have hold := h.retried k g (hwrote.row_ne k hkey ▸ hg)
        simpa [lastRetry, Ne.symm hkey] using hold
  · simp only [PeerPlanner.view, PeerPlanner.state, hwrote.row_ne k hk]
  · simp only [PeerPlanner.view, PeerPlanner.state, hwrote.row_self]

section Dials

variable {dials : List (I × DialState K)} {k : K} {mark : DialState K}

theorem runningFor_markDials_self (hmark : mark ≠ .running key) :
    runningFor key (markDials key mark dials) = 0 := by
  rw [runningFor, markDials, List.countP_map, List.countP_eq_zero]
  intro d _
  by_cases hd : d.2 = .running key <;> simp [hd, hmark]

theorem runningFor_markDials_ne (hk : k ≠ key) (hmark : mark ≠ .running k) :
    runningFor k (markDials key mark dials) = runningFor k dials := by
  rw [runningFor, markDials, List.countP_map, runningFor]
  refine List.countP_congr fun d _ => ?_
  by_cases hd : d.2 = .running key
  · simp [hd, hmark, Ne.symm hk]
  · simp [hd]

theorem runs_markDials (p : PeerPlanner K I) (key : K) (mark : DialState K)
    (hmark : ∀ k, mark ≠ .running k) {id : I}
    (h : PeerPlanner.Runs { p with dials := markDials key mark p.dials } id) : p.Runs id := by
  obtain ⟨k, hmem⟩ := h
  obtain ⟨d, hd, heq⟩ := List.mem_map.mp hmem
  split_ifs at heq with hrun
  · exact absurd (Prod.mk.inj heq).2 (hmark k)
  · exact ⟨k, heq ▸ hd⟩

end Dials

theorem Sound.mark (h : Sound S s) (key : K) (mark : DialState K) :
    Sound S { s with planner := { s.planner with dials := markDials key mark s.planner.dials } } := by
  have hkeys : (markDials key mark s.planner.dials).map Prod.fst = s.planner.dials.map Prod.fst := by
    rw [markDials, List.map_map]
    refine List.map_congr_left fun d _ => ?_
    simp only [Function.comp_apply]
    split_ifs <;> rfl
  refine { h with faces := fun d hd => ?_, dials := ?_ }
  · obtain ⟨d', hd', rfl⟩ := List.mem_map.mp hd
    obtain ⟨n, hn, hface⟩ := h.faces d' hd'
    refine ⟨n, hn, ?_⟩
    split_ifs <;> exact hface
  · rw [Keyed, hkeys]
    exact h.dials

theorem worked_abandon (h : Sound S s) (key : K) :
    Worked S key s
        { s with planner := { s.planner with dials := markDials key .abandoned s.planner.dials } } ∧
      ({ s.planner with dials := markDials key .abandoned s.planner.dials } : PeerPlanner K I).view
        key = { s.planner.view key with running := 0 } := by
  refine ⟨Worked.quiet (h.mark key _) (fun k hk => ?_) Iff.rfl rfl rfl (List.append_nil _).symm rfl
    fun id hid => runs_markDials _ key .abandoned (by simp) hid, ?_⟩
  · simp only [PeerPlanner.view, PeerPlanner.state,
      runningFor_markDials_ne hk (by simp : DialState.abandoned ≠ .running k)]
  · simp only [PeerPlanner.view, PeerPlanner.state,
      runningFor_markDials_self (by simp : DialState.abandoned ≠ .running key)]

theorem worked_dial (h : Sound S s) (key : K) (target : T) :
    Worked S key s
        { s with
          planner := { s.planner with
            dials := s.planner.dials ++ [(S.face s.nextId, .running key)] }
          nextId := s.nextId + 1
          actions := s.actions ++ [.dial (S.face s.nextId) key target] } ∧
      ({ s.planner with dials := s.planner.dials ++ [(S.face s.nextId, .running key)] } :
        PeerPlanner K I).view key =
        { s.planner.view key with running := (s.planner.view key).running + 1 } := by
  refine ⟨?_, ?_⟩
  · refine
      { sound := { h with
          faces := fun d hd => ?_
          dials := ?_
          retried := fun k g hg => by simpa [lastRetry] using h.retried k g hg }
        others := fun k hk => ?_
        known := fun _ => Iff.rfl
        remotes := rfl
        asked := ⟨Nat.le_succ _, ⟨_, rfl, ?_⟩, fun id hid => ?_⟩ }
    · rcases List.mem_append.mp hd with hd | hd
      · obtain ⟨n, hn, hface⟩ := h.faces d hd
        exact ⟨n, hn.trans (Nat.lt_succ_self _), hface⟩
      · cases List.mem_singleton.mp hd
        exact ⟨s.nextId, Nat.lt_succ_self _, rfl⟩
    · rw [Keyed, List.map_append, List.map_singleton]
      refine h.dials.append (List.nodup_singleton _) ?_
      rw [List.disjoint_singleton]
      intro hmem
      obtain ⟨d, hd, heq⟩ := List.mem_map.mp hmem
      obtain ⟨n, hn, hface⟩ := h.faces d hd
      rw [S.face_injective (heq.symm.trans hface)] at hn
      exact lt_irrefl _ hn
    · simp [PeerPlanner.view, PeerPlanner.state, runningFor, List.countP_append, Ne.symm hk]
    · simp [dialIds]
    · obtain ⟨k, hmem⟩ := hid
      rcases List.mem_append.mp hmem with hmem | hmem
      · exact .inl ⟨k, hmem⟩
      · have hid := (Prod.mk.inj (List.mem_singleton.mp hmem)).1
        exact .inr ⟨s.nextId, le_rfl, Nat.lt_succ_self _, hid⟩
  · simp [PeerPlanner.view, PeerPlanner.state, runningFor, List.countP_append]

end Planner

end WatchingZenoh.PeerPlanner
