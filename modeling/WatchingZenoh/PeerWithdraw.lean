import WatchingZenoh.PeerRuns

/-! A node is withdrawn: every peer that is the node, or whose session last named it, is stopped. The
nodes the sessions named are kept in a side table that outlives the entries a full table gives away,
so a node can be forgotten for want of room; it is not as long as no such entry is given away. -/

namespace WatchingZenoh.PeerPlanner

open KeyedRows

variable {K I T σ : Type} [LinearOrder K] [DecidableEq I]

/-- A planner with the node each peer's session last named. -/
structure Chronicle (K I T σ : Type) where
  desk : Desk K I T σ
  named : K → Option DirectoryZid

def Chronicle.new (ports : σ) : Chronicle K I T σ := ⟨Desk.new ports, fun _ => none⟩

namespace Setting

variable (S : Setting K I T σ)

/-- The nodes named after a call: a dial that its peer wants may come to a session that names one,
and a peer that is forgotten has had no session. -/
def naming (p : PeerPlanner K I) (named : K → Option DirectoryZid) :
    Verb K I → K → Option DirectoryZid
  | .dialEnded id dialEnd =>
    match row p.dials id, dialEnd.named with
    | some (.running key), some (some zid) => Function.update named key (some zid)
    | _, _ => named
  | .forget key => Function.update named key none
  | _ => named

def record (fuel : ℕ) (c : Chronicle K I T σ) (call : Call K I σ) :
    Option (Chronicle K I T σ × Unit) :=
  (S.step fuel c.desk call).map fun desk =>
    (⟨desk, naming c.desk.planner c.named call.verb⟩, ())

/-- An `open` gives away no entry of a peer whose session named a node. -/
def sparesNamed (p : PeerPlanner K I) : Verb K I → Bool
  | .open_ key => (S.evicted p key).all fun k => (row p.remotes k).isNone
  | .openPassive key => (S.evicted p key).all fun k => (row p.remotes k).isNone
  | _ => true

end Setting

variable {S : Setting K I T σ} {s s' : Desk K I T σ} {key : K} {fuel : ℕ}

/-- The side table has a row for a peer only while it is in the table, and it is the node its session
last named. -/
structure Remembers (S : Setting K I T σ) (p : PeerPlanner K I) (named : K → Option DirectoryZid) :
    Prop where
  keyed : Keyed p.remotes
  length_le : p.remotes.length ≤ S.N
  sub : ∀ k, row p.remotes k ≠ none → p.state k ≠ none
  named : ∀ k, named k = row p.remotes k

omit [DecidableEq I] in
theorem Remembers.steady {named : K → Option DirectoryZid} (h : Remembers S s.planner named)
    (hremotes : s'.planner.remotes = s.planner.remotes)
    (hsub : ∀ k, row s.planner.remotes k ≠ none → s'.planner.state k = none →
      s.planner.state k = none) : Remembers S s'.planner named where
  keyed := hremotes ▸ h.keyed
  length_le := hremotes ▸ h.length_le
  sub := fun k hk hnone => by
    rw [hremotes] at hk
    exact h.sub k hk (hsub k hk hnone)
  named := hremotes ▸ h.named

omit [DecidableEq I] in
theorem Remembers.of_steady {named : K → Option DirectoryZid} (h : Remembers S s.planner named)
    (hsteady : Steady s s') : Remembers S s'.planner named :=
  h.steady hsteady.remotes fun k _ => (hsteady.known k).mp

omit [DecidableEq I] in
theorem Remembers.learn {named : K → Option DirectoryZid} (h : Remembers S s.planner named)
    (hsound : Sound S s) (hst : s.planner.state key ≠ none) {dialEnd : DialEnd I}
    {zid : DirectoryZid} (hend : dialEnd.named = some (some zid))
    (hlearned : Learned S key dialEnd s s') :
    Remembers S s'.planner (Function.update named key (some zid)) := by
  have hremotes : s'.planner.remotes = (setRow S.N s.planner.remotes key zid).1 := by
    rw [hlearned.remotes, hend]
    rfl
  have hroom : row s.planner.remotes key ≠ none ∨ s.planner.remotes.length < S.N := by
    by_cases hrow : row s.planner.remotes key = none
    · exact .inr (length_lt_of_missing h.keyed hsound.entries_le h.sub hrow hst)
    · exact .inl hrow
  have hwrote := wrote_setRow h.keyed h.length_le hroom zid
  refine ⟨hremotes ▸ hwrote.keyed, hremotes ▸ hwrote.length_le, fun k hk hnone => ?_, fun k => ?_⟩
  · rw [hlearned.known] at hnone
    by_cases hkey : k = key
    · exact hst (hkey ▸ hnone)
    · rw [hremotes, hwrote.row_ne k hkey] at hk
      exact h.sub k hk hnone
  · rw [hremotes]
    by_cases hkey : k = key
    · rw [hkey, Function.update_self, hwrote.row_self]
    · rw [Function.update_of_ne hkey, hwrote.row_ne k hkey, h.named]

omit [DecidableEq I] in
theorem Remembers.forget {named : K → Option DirectoryZid} (h : Remembers S s.planner named)
    (hsound : Sound S s) (key : K) :
    Remembers S (s.planner.forget key) (Function.update named key none) := by
  have hdrop := dropped_dropRow h.keyed key
  have hentries := dropped_dropRow hsound.entries key
  refine ⟨hdrop.keyed, hdrop.length_le.trans h.length_le, fun k hk => ?_, fun k => ?_⟩
  · by_cases hkey : k = key
    · exact absurd (hkey ▸ hdrop.row_self) hk
    · rw [PeerPlanner.state, PeerPlanner.forget, hentries.row_ne k hkey]
      exact h.sub k (hdrop.row_ne k hkey ▸ hk)
  · by_cases hkey : k = key
    · rw [hkey, Function.update_self]
      exact hdrop.row_self.symm
    · rw [Function.update_of_ne hkey, h.named]
      exact (hdrop.row_ne k hkey).symm

theorem Remembers.dialEnded {named : K → Option DirectoryZid} (h : Remembers S s.planner named)
    (hmatched : Matched S s) (hfuel : 3 ≤ fuel) (id : I) (dialEnd : DialEnd I) {answer : Option Bool}
    (hrun : S.dialEnded fuel id dialEnd s = some (s', answer)) :
    Remembers S s'.planner (Setting.naming s.planner named (.dialEnded id dialEnd)) := by
  obtain ⟨s'', answer', hrun', -, hother, hwanted⟩ := acted_dialEnded hmatched hfuel id dialEnd
  rw [hrun] at hrun'
  cases hrun'
  by_cases hruns : s.planner.Runs id
  · obtain ⟨key, hmem⟩ := hruns
    obtain ⟨hlearned, -⟩ := hwanted key hmem
    have hrow : row s.planner.dials id = some (.running key) :=
      (row_eq_some_iff hmatched.sound.dials).mpr hmem
    have hst : s.planner.state key = some .connecting :=
      congrArg View.state (hmatched.view_running hmem)
    have hknown : s.planner.state key ≠ none := by simp [hst]
    rcases hend : dialEnd.named with _ | _ | zid
    · simp only [Setting.naming, hrow, hend]
      exact h.of_steady ⟨by rw [hlearned.remotes, hend]; rfl, hlearned.known⟩
    · simp only [Setting.naming, hrow, hend]
      exact h.of_steady ⟨by rw [hlearned.remotes, hend]; rfl, hlearned.known⟩
    · simp only [Setting.naming, hrow, hend]
      exact h.learn hmatched.sound hknown hend hlearned
  · obtain ⟨hentries, hremotes⟩ := hother hruns
    have hnaming : Setting.naming s.planner named (.dialEnded id dialEnd) = named := by
      rcases hrow : row s.planner.dials id with _ | _ | _ | _
      · simp [Setting.naming, hrow]
      · exact absurd ⟨_, (row_eq_some_iff hmatched.sound.dials).mp hrow⟩ hruns
      · simp [Setting.naming, hrow]
      · simp [Setting.naming, hrow]
    rw [hnaming]
    refine h.of_steady ⟨hremotes, fun k => ?_⟩
    rw [PeerPlanner.state, PeerPlanner.state, hentries]

theorem Remembers.act {named : K → Option DirectoryZid} (h : Remembers S s.planner named)
    (hmatched : Matched S s) (hfuel : 3 ≤ fuel) {verb : Verb K I}
    (hspares : S.sparesNamed s.planner verb = true) (hact : S.act fuel s verb = some s') :
    Remembers S s'.planner (Setting.naming s.planner named verb) := by
  have hopen : ∀ {key : K} {e : PeerConnectionEvent}, e = .manualStart ∨ e = .manualStartPassive →
      (S.evicted s.planner key).all (fun k => (row s.planner.remotes k).isNone) = true →
      (S.openWith fuel key e s).map Prod.fst = some s' → Remembers S s'.planner named := by
    intro key e he hspares hopen
    obtain ⟨s'', ok, hrun, -, hremotes, hgone⟩ := acted_openWith hmatched hfuel key he
    rw [hrun] at hopen
    cases hopen
    refine h.steady hremotes fun k hk hnone => ?_
    by_contra hknown
    rw [hgone k hknown hnone] at hspares
    exact hk (by simpa using hspares)
  cases verb with
  | open_ key => exact hopen (.inl rfl) hspares hact
  | openPassive key => exact hopen (.inr rfl) hspares hact
  | inboundUp key id =>
    obtain ⟨s'', ok, hrun, -, hsteady, -⟩ := acted_inboundUp hmatched hfuel key id
    rw [Setting.act, hrun] at hact
    cases hact
    exact h.of_steady hsteady
  | inboundDown key =>
    obtain ⟨s'', ok, hrun, -, hsteady⟩ := acted_inboundDown hmatched hfuel key
    rw [Setting.act, hrun] at hact
    cases hact
    exact h.of_steady hsteady
  | retryDue key generation =>
    obtain ⟨s'', hrun, -, hsteady⟩ := acted_retryDue hmatched hfuel key generation
    rw [Setting.act, hrun] at hact
    cases hact
    exact h.of_steady hsteady
  | dialEnded id dialEnd =>
    rw [Setting.act, Option.map_eq_some_iff] at hact
    obtain ⟨⟨s'', answer⟩, hrun, rfl⟩ := hact
    exact h.dialEnded hmatched hfuel id dialEnd hrun
  | faceDown id =>
    obtain ⟨s'', ok, hrun, -, hsteady⟩ := acted_faceDown hmatched hfuel id
    rw [Setting.act, hrun] at hact
    cases hact
    exact h.of_steady hsteady
  | withdraw zid node =>
    obtain ⟨s'', hrun, hstopped⟩ := hmatched.stops hfuel (S.reaching s.planner zid node)
    rw [Setting.act, Setting.withdraw, hrun] at hact
    cases hact
    exact h.of_steady hstopped.steady
  | stop key =>
    obtain ⟨s'', hrun, hstopped⟩ := hmatched.stop hfuel key
    rw [Setting.act, hrun] at hact
    cases hact
    exact h.of_steady hstopped.worked.steady
  | forget key =>
    cases hact
    exact h.forget hmatched.sound key
  | mint n =>
    cases hact
    exact h.of_steady ⟨rfl, fun _ => Iff.rfl⟩

omit [DecidableEq I] in
theorem Remembers.mem_reaching {named : K → Option DirectoryZid} (h : Remembers S s.planner named)
    (hsound : Sound S s) {zid : DirectoryZid} {node k : K} (hk : s.planner.state k ≠ none)
    (hnode : k = node ∨ named k = some zid) : k ∈ S.reaching s.planner zid node := by
  have htake : ((s.planner.remotes.filter fun r => r.2 = zid ∧ r.1 ≠ node).map Prod.fst).take S.N =
      (s.planner.remotes.filter fun r => r.2 = zid ∧ r.1 ≠ node).map Prod.fst := by
    refine List.take_of_length_le ?_
    rw [List.length_map]
    exact (List.length_filter_le _ _).trans h.length_le
  by_cases hkey : k = node
  · subst hkey
    -- The others that are found are peers of the table beside the node.
    have hlt : (s.planner.remotes.filter fun r => r.2 = zid ∧ r.1 ≠ k).length < S.N := by
      refine length_lt_of_missing (h.keyed.sublist (List.filter_sublist.map _)) hsound.entries_le
        (k := k) (fun k' hk' => ?_) ?_ hk
      · refine h.sub k' fun hnone => hk' ?_
        rw [row_eq_none_iff] at hnone ⊢
        exact fun v hv => hnone v (List.mem_filter.mp hv).1
      · rw [row_eq_none_iff]
        intro v hv
        simpa using (List.mem_filter.mp hv).2
    rw [Setting.reaching]
    rw [if_pos (by rw [List.length_mergeSort, htake, List.length_map]; exact hlt)]
    simp
  · have hrow : row s.planner.remotes k = some zid := (h.named k).symm.trans (hnode.resolve_left hkey)
    have hmem : k ∈ (((s.planner.remotes.filter fun r => r.2 = zid ∧ r.1 ≠ node).map
        Prod.fst).take S.N).mergeSort (· ≤ ·) := by
      rw [List.mem_mergeSort, htake]
      refine List.mem_map.mpr ⟨(k, zid), List.mem_filter.mpr ⟨?_, by simp [hkey]⟩, rfl⟩
      exact (row_eq_some_iff h.keyed).mp hrow
    rw [Setting.reaching]
    split_ifs
    · exact List.mem_append_left _ hmem
    · exact hmem

/-- A peer is hung up between two states of the planner. -/
structure HungUp (s s' : Desk K I T σ) (done : List (PeerAction K I T)) (k : K) : Prop where
  idle : s'.planner.state k = some .idle
  closed : ∀ id, row s.planner.held k = some id → .close id ∈ done
  abandoned : ∀ id, (id, .running k) ∈ s.planner.dials → (id, .abandoned) ∈ s'.planner.dials
  disarmed : row s'.planner.armed k = none

theorem Remembers.withdraw {named : K → Option DirectoryZid} (h : Remembers S s.planner named)
    (hmatched : Matched S s) (hfuel : 3 ≤ fuel) (zid : DirectoryZid) (node : K) (ports : σ) :
    ∃ s', S.step fuel s ⟨.withdraw zid node, ports⟩ = some s' ∧
      ∃ done, s'.actions = s.actions ++ done ∧
        ∀ k, s.planner.state k ≠ none → k = node ∨ named k = some zid → HungUp s s' done k := by
  obtain ⟨s', hrun, hstopped⟩ := (hmatched.set_ports ports).stops hfuel
    (S.reaching s.planner zid node)
  obtain ⟨done, hdone, hclosed⟩ := hstopped.closed
  refine ⟨s', hrun, done, hdone, fun k hk hnode => ?_⟩
  have hmem := h.mem_reaching hmatched.sound hk hnode
  have hidle := hstopped.idle k hk (.inl hmem)
  refine ⟨hidle, hclosed k hmem, hstopped.dropped k hmem, ?_⟩
  have hfits := hstopped.matched.fits k
  have hview : (s'.planner.view k).state = some .idle := hidle
  rcases hfits.cases hview with ⟨heq, -⟩ | ⟨heq, -⟩ | ⟨heq, -⟩ | ⟨-, -, -, -, heq⟩
  · simp at heq
  · simp at heq
  · simp at heq
  · exact congrArg View.armed heq

/-- In every run that gives away no entry of a peer whose session named a node, a node that is
withdrawn is hung up: all its peers are stopped. -/
theorem withdraw_hangs_up (S : Setting K I T σ) (fuel : ℕ) (ports : σ) (calls : List (Call K I σ))
    (hspares : Steps.Along (S.record (fuel + 3))
      (fun c call => S.sparesNamed c.desk.planner call.verb = true) (Chronicle.new ports) calls) :
    ∃ c answers, Steps.run (S.record (fuel + 3)) (Chronicle.new ports) calls = some (c, answers) ∧
      ∀ zid node ports, ∃ s', S.step (fuel + 3) c.desk ⟨.withdraw zid node, ports⟩ = some s' ∧
        ∃ done, s'.actions = c.desk.actions ++ done ∧
          ∀ k, c.desk.planner.state k ≠ none → k = node ∨ c.named k = some zid →
            HungUp c.desk s' done k := by
  have hfuel : 3 ≤ fuel + 3 := Nat.le_add_left 3 fuel
  have hnew : Remembers S (Chronicle.new ports : Chronicle K I T σ).desk.planner fun _ => none :=
    ⟨keyed_nil, Nat.zero_le _, by simp [Chronicle.new, Desk.new, PeerPlanner.new, row],
      fun _ => rfl⟩
  obtain ⟨c, answers, hrun, hkept, hremembers⟩ := Steps.run_keeps_along
    (I := fun c : Chronicle K I T σ => Kept S c.desk ∧ Remembers S c.desk.planner c.named)
    (fun c call hc hspares => by
      obtain ⟨s', hstep, hkept, -⟩ := kept_step hc.1 hfuel call
      refine ⟨_, (), by rw [Setting.record, hstep]; rfl, hkept, ?_⟩
      exact Remembers.act (s := { c.desk with ports := call.ports }) hc.2
        (hc.1.matched.set_ports call.ports) hfuel hspares hstep)
    calls ⟨kept_new S ports, hnew⟩ hspares
  exact ⟨c, answers, hrun, hremembers.withdraw hkept.matched hfuel⟩

section Fixed

/-- One entry, one dial at a time, and every peer has an address. -/
def lone : Setting ℕ ℕ Unit Unit where
  N := 1
  D := 1
  face := id
  face_injective := fun _ _ => id
  host := ⟨fun _ _ => (some (), ()), fun _ _ => (100, ()), fun _ _ => ()⟩

def nodeA : DirectoryZid := Vector.replicate 16 1

def nodeB : DirectoryZid := Vector.replicate 16 2

/-- The entry of a peer whose session named a node is given to another peer, whose session names
another node. -/
def evicting : List (Call ℕ ℕ Unit) :=
  [⟨.open_ 1, ()⟩, ⟨.dialEnded 0 (.established (some nodeA)), ()⟩, ⟨.withdraw nodeA 1, ()⟩,
    ⟨.open_ 2, ()⟩, ⟨.dialEnded 1 (.established (some nodeB)), ()⟩]

theorem withdraw_hangs_up_lone :
    ∃ c answers, Steps.run (lone.record 3) (Chronicle.new ()) (evicting.take 2) =
        some (c, answers) ∧
      ∀ zid node ports, ∃ s', lone.step 3 c.desk ⟨.withdraw zid node, ports⟩ = some s' ∧
        ∃ done, s'.actions = c.desk.actions ++ done ∧
          ∀ k, c.desk.planner.state k ≠ none → k = node ∨ c.named k = some zid →
            HungUp c.desk s' done k :=
  withdraw_hangs_up lone 0 () (evicting.take 2)
    (Steps.along_of_check (p := fun (c : Chronicle ℕ ℕ Unit Unit) (call : Call ℕ ℕ Unit) =>
      lone.sparesNamed c.desk.planner call.verb)
      (fun _ _ h => h) (by decide +kernel))

theorem withdraw_leaves_established :
    ∃ c s', (Steps.run (lone.record 3) (Chronicle.new ()) evicting).map Prod.fst = some c ∧
      c.desk.planner.state 2 = some .established ∧ c.named 2 = some nodeB ∧
      lone.step 3 c.desk ⟨.withdraw nodeB 7, ()⟩ = some s' ∧
      s'.planner.state 2 = some .established :=
  ⟨((Steps.run (lone.record 3) (Chronicle.new ()) evicting).map Prod.fst).get (by decide +kernel),
    (lone.step 3 (((Steps.run (lone.record 3) (Chronicle.new ()) evicting).map Prod.fst).get
      (by decide +kernel)).desk ⟨.withdraw nodeB 7, ()⟩).get (by decide +kernel),
    Option.some_get _ |>.symm, by decide +kernel, by decide +kernel, Option.some_get _ |>.symm,
    by decide +kernel⟩

end Fixed

end WatchingZenoh.PeerPlanner
