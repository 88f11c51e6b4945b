import WatchingZenoh.PendingQueriesSteps
import WatchingZenoh.Library.Steps

/-! Every routed query is closed once: in every order of the steps the count of its fan comes to zero
once, when its routing call has let go and its last branch has ended, and one task is told. -/

namespace WatchingZenoh.PendingQueries

open KeyedRows

namespace Mesh

variable {Face Qos : Type} [DecidableEq Face] {m m' : Mesh Face Qos}

/-- The face of a branch that is being entered has ids left that it has not handed out. -/
def room (m : Mesh Face Qos) : Bool :=
  match m.busy with
  | some (.allocate face _ _) => decide ((m.handed face).length < 2 ^ 64)
  | _ => true

/-- The meshes that any order of the tasks' steps comes to, where no face hands out more ids between two
removals than there are. -/
inductive Reached : Mesh Face Qos → Prop
  | new : Reached new
  | step {m m' : Mesh Face Qos} (h : Reached m) (act : Act Face Qos) (hroom : m.room = true)
      (hstep : m.step act = some m') : Reached m'

omit [DecidableEq Face] in
theorem idle_of_isNone (h : m.busy.isNone = true) :
    (∀ fan, m.starting fan = false) ∧ ∀ fan, m.ending fan = 0 := by
  rw [Option.isNone_iff_eq_none] at h
  exact ⟨fun fan => by rw [starting, h], fun fan => by rw [ending, h]⟩

theorem Counted.proceed (h : m.Counted) (hroom : m.room = true) (hstep : m.proceed = some m') :
    m'.Counted := by
  rw [Mesh.proceed] at hstep
  rcases hbusy : m.busy with _ | ⟨face, fan, deadline⟩ | ⟨_ | ⟨branch, rest⟩, victims⟩
  · simp [hbusy] at hstep
  · simp only [hbusy, Option.some.injEq] at hstep
    subst hstep
    rw [room, hbusy] at hroom
    exact h.enter hbusy (of_decide_eq_true hroom)
  · have hidle : (∀ fan, m.starting fan = false) ∧ ∀ fan, m.ending fan = 0 :=
      ⟨fun fan => by rw [starting, hbusy], fun fan => by rw [ending, hbusy]; rfl⟩
    cases victims with
    | nil =>
      simp only [hbusy, Option.some.injEq] at hstep
      subst hstep
      refine h.moved h.keyed h.entries (fun _ _ heq => by simp at heq) (fun _ => rfl) (fun fan => ?_)
        h.numbered h.next h.few h.kept
      rw [holders, hidle.1, hidle.2]
      rfl
    | cons victim victims =>
      simp only [hbusy, Option.some.injEq] at hstep
      subst hstep
      exact h.takeOut hidle.1 hidle.2 victim victims
  · simp only [hbusy, Option.some.injEq] at hstep
    subst hstep
    exact h.close hbusy

theorem Counted.step (h : m.Counted) (hroom : m.room = true) {act : Act Face Qos}
    (hstep : m.step act = some m') : m'.Counted := by
  cases act with
  | newFan inbound rid qos =>
    cases hstep
    exact h.newFan inbound rid qos
  | allocate face fan deadline =>
    rw [Mesh.step] at hstep
    split_ifs at hstep with hcond
    cases hstep
    obtain ⟨hstarting, hending⟩ := idle_of_isNone hcond.1
    exact h.allocate hstarting hending hcond.2 face deadline
  | release fan =>
    rw [Mesh.step] at hstep
    split_ifs at hstep with hcond
    cases hstep
    exact h.release hcond.1 hcond.2
  | take face qid =>
    rw [Mesh.step] at hstep
    split_ifs at hstep with hcond
    cases hstep
    obtain ⟨hstarting, hending⟩ := idle_of_isNone hcond
    exact h.takeOut hstarting hending (face, qid) []
  | expired now order =>
    rw [Mesh.step] at hstep
    split_ifs at hstep with hcond
    cases hstep
    obtain ⟨hstarting, hending⟩ := idle_of_isNone hcond.1
    refine h.moved h.keyed h.entries (fun branches victims heq b hb => ?_) (fun _ => rfl)
      (fun fan => ?_) h.numbered h.next h.few h.kept
    · cases heq
      simp at hb
    · rw [holders, hstarting, hending]
      rfl
  | removeFace face order =>
    rw [Mesh.step] at hstep
    split_ifs at hstep with hcond
    cases hstep
    obtain ⟨hstarting, hending⟩ := idle_of_isNone hcond.1
    exact h.removeFace hstarting hending face hcond.2
  | proceed => exact h.proceed hroom hstep

theorem Reached.counted (h : m.Reached) : m.Counted := by
  induction h with
  | new => exact counted_new
  | step _ act hroom hstep ih => exact ih.step hroom hstep

/-- What is said of the queries that were routed. -/
structure ClosedOnce (m : Mesh Face Qos) : Prop where
  once : ∀ fan, m.reports.countP (fun r => r.1 = fan) ≤ 1
  /-- The last is told when the routing call has let go and no branch is left in the table; between
  two table calls no branch is out of it and not ended. -/
  told : ∀ fan, (∃ target, (fan, target) ∈ m.reports) ↔
    m.released fan = true ∧ (∀ e ∈ m.table.returns, e.2.fan ≠ fan) ∧ m.ending fan = 0
  between : m.busy = none → ∀ fan, m.ending fan = 0
  returned : ∀ fan target, (fan, target) ∈ m.reports → (m.fans fan).map QueryFan.queryReturn = some target
  distinct : ∀ face, ((m.handed face).map Prod.fst).Nodup
  peeked : ∀ face qid target, m.peek face qid = some target → ∃ fan, (qid, fan) ∈ m.handed face ∧
    (m.fans fan).map QueryFan.queryReturn = some target
  taken : ∀ face qid ret, m.table.lookup face qid = some ret → (qid, ret.fan) ∈ m.handed face

omit [DecidableEq Face] in
/-- A fan whose count is zero has no holder. -/
theorem Counted.told_iff (h : m.Counted) (fan : ℕ) : (∃ target, (fan, target) ∈ m.reports) ↔
    m.released fan = true ∧ (∀ e ∈ m.table.returns, e.2.fan ≠ fan) ∧ m.ending fan = 0 := by
  have hcount : (∃ target, (fan, target) ∈ m.reports) ↔ m.reports.countP (fun r => r.1 = fan) ≠ 0 := by
    rw [← Nat.pos_iff_ne_zero, List.countP_pos_iff]
    constructor
    · rintro ⟨target, hmem⟩
      exact ⟨(fan, target), hmem, by simp⟩
    · rintro ⟨⟨fan', target⟩, hmem, heq⟩
      simp only [decide_eq_true_eq] at heq
      exact ⟨target, heq ▸ hmem⟩
  rw [hcount, h.reported]
  rcases hf : m.fans fan with _ | f
  · have hnot : m.released fan = false := by
      by_contra hrel
      refine hrel (h.unreleased fan (Nat.not_lt.mp fun hlt => ?_))
      have := (h.known fan).mpr hlt
      simp [hf] at this
    simp [hnot]
  · have hlive := h.live fan f hf
    have hentries : countFan fan m.table.returns = 0 ↔ ∀ e ∈ m.table.returns, e.2.fan ≠ fan := by
      rw [← not_iff_not, ← ne_eq, countFan_pos_iff]
      simp
    have hstart : m.released fan = true → m.starting fan = false := fun hrel => by
      by_contra hne
      have := (held_iff.mp (h.starts fan (by simpa using hne))).2
      simp [hrel] at this
    rw [← hentries]
    simp only [Option.any_some, decide_eq_true_eq]
    rw [hlive, holders]
    cases hrel : m.released fan with
    | false =>
      simp only [Bool.false_eq_true, if_false]
      rw [if_neg (by omega)]
      simp
    | true =>
      rw [hstart hrel]
      simp only [if_true, Bool.false_eq_true, if_false, true_and]
      split_ifs with hzero
      · simp only [ne_eq, one_ne_zero, not_false_eq_true, true_iff]
        omega
      · simp only [ne_eq, not_true_eq_false, false_iff]
        omega

theorem nodup_numbers {n : ℕ} (h : n ≤ 2 ^ 64) :
    ((List.range n).map fun i => (i + 1) % 2 ^ 64).Nodup := by
  refine List.Nodup.map_on (fun i hi j hj heq => ?_) List.nodup_range
  rw [List.mem_range] at hi hj
  omega

theorem Counted.closedOnce (h : m.Counted) : m.ClosedOnce where
  once := fun fan => by
    rw [h.reported]
    split_ifs <;> omega
  told := h.told_iff
  between := fun hbusy fan => by rw [ending, hbusy]
  returned := fun fan target hmem => h.returned (fan, target) hmem
  distinct := fun face => by
    rw [h.numbered]
    exact nodup_numbers (h.few face)
  peeked := fun face qid target hpeek => by
    rw [peek, Option.bind_eq_bind, Option.bind_eq_some_iff] at hpeek
    obtain ⟨ret, hrow, hfan⟩ := hpeek
    rw [Option.bind_eq_bind, Option.bind_eq_some_iff] at hfan
    obtain ⟨f, hf, heq⟩ := hfan
    exact ⟨ret.fan, h.kept _ ((row_eq_some_iff h.keyed).mp hrow), by rw [hf]; exact heq⟩
  taken := fun face qid ret hrow => h.kept _ ((row_eq_some_iff h.keyed).mp hrow)

/-- In every order of the steps of any tasks, as long as no face hands out more ids than there are
between two removals, each query is closed once. -/
theorem reached_closedOnce (h : m.Reached) : m.ClosedOnce := h.counted.closedOnce

/-- A query of a querier on face 9 that goes out on face 4 and on face 5, is answered on 4, is let go,
and loses face 5. -/
def routed : List (Act ℕ Unit) :=
  [.newFan 9 77 (), .allocate 4 0 10, .proceed, .allocate 5 0 10, .proceed, .take 4 1, .proceed,
    .proceed, .release 0, .removeFace 5 [((5, 1), ⟨0, 10⟩)], .proceed, .proceed]

/-- The steps one after the other, as long as there is room. -/
def run (m : Mesh Face Qos) (acts : List (Act Face Qos)) : Option (Mesh Face Qos) :=
  acts.foldlM (fun m act => if m.room then m.step act else none) m

theorem Reached.run (h : m.Reached) {acts : List (Act Face Qos)} (hrun : m.run acts = some m') :
    m'.Reached :=
  Steps.foldlM_preserves (fun _ act _ hm hstep => by
    split_ifs at hstep with hroom
    exact hm.step act hroom hstep) h hrun

theorem routed_closedOnce :
    ((Mesh.new : Mesh ℕ Unit).run routed).isSome ∧
      (((Mesh.new : Mesh ℕ Unit).run routed).get (by decide +kernel)).reports = [(0, ⟨9, 77, ()⟩)] ∧
      (((Mesh.new : Mesh ℕ Unit).run routed).get (by decide +kernel)).ClosedOnce :=
  ⟨by decide +kernel, by decide +kernel, reached_closedOnce (Reached.run .new (Option.some_get _).symm)⟩

/-- A branch that is entered on a face and taken back. -/
def round (face : Face) (fan deadline qid : ℕ) : List (Act Face Qos) :=
  [.allocate face fan deadline, .proceed, .take face qid, .proceed, .proceed]

theorem step_round {fan : ℕ} {f : QueryFan Face Qos} (hf : m.fans fan = some f)
    (hreleased : m.released fan = false) (hbusy : m.busy = none) (face : Face) (deadline : ℕ) :
    ∃ m', (round face fan deadline (m.table.freshQid face)).foldlM (fun m act => m.step act) m =
        some m' ∧
      m'.busy = none ∧ m'.released fan = false ∧ (∃ f', m'.fans fan = some f') ∧
      m'.table.nextQid face = m.table.freshQid face ∧
      (m'.handed face).map Prod.fst = (m.handed face).map Prod.fst ++ [m.table.freshQid face] := by
  have hheld : m.held fan = true := held_iff.mpr ⟨⟨f, hf⟩, hreleased⟩
  have hfirst : m.step (.allocate face fan deadline) =
      some { m.branchStarted fan with busy := some (.allocate face fan deadline) } := by
    rw [step, if_pos ⟨by rw [hbusy]; rfl, hheld⟩]
  have hstarted : (m.branchStarted fan).fans fan = some { f with live := f.live + 1 } := by
    simp [branchStarted, hf]
  have hlookup : (m.table.insert face ⟨fan, deadline⟩).lookup face (m.table.freshQid face) =
      some ⟨fan, deadline⟩ := by
    simp [PendingQueries.lookup, PendingQueries.insert, row]
  rw [round, List.foldlM_cons, hfirst]
  simp only [Option.bind_eq_bind, Option.bind_some, List.foldlM_cons, step, proceed]
  simp only [branchStarted, PendingQueries.freshQid] at hlookup hstarted ⊢
  simp only [Option.bind_some, Option.isNone_none, if_true, takeOut, hlookup, Option.elim_some,
    branches, List.filterMap_cons, hstarted, Option.map_some, List.filterMap_nil, holderEnded]
  refine ⟨_, rfl, rfl, hreleased, ⟨⟨f.live + 1 - 1, f.inbound, f.inboundRid, f.srcQos⟩, by simp⟩,
    ?_, ?_⟩
  · simp [PendingQueries.remove, PendingQueries.insert, PendingQueries.freshQid]
  · simp

theorem steps_rounds {fan : ℕ} (face : Face) (deadline k n : ℕ) (m : Mesh Face Qos)
    (hf : ∃ f, m.fans fan = some f) (hreleased : m.released fan = false) (hbusy : m.busy = none)
    (hnext : m.table.nextQid face = k % 2 ^ 64) :
    ∃ m', ((List.range' k n).flatMap fun i => round face fan deadline ((i + 1) % 2 ^ 64)).foldlM
        (fun m act => m.step act) m = some m' ∧
      (m'.handed face).map Prod.fst =
        (m.handed face).map Prod.fst ++ (List.range' k n).map fun i => (i + 1) % 2 ^ 64 := by
  induction n generalizing k m with
  | zero => exact ⟨m, rfl, by simp⟩
  | succ n ih =>
    obtain ⟨f, hf⟩ := hf
    have hfresh : m.table.freshQid face = (k + 1) % 2 ^ 64 := by
      rw [PendingQueries.freshQid, hnext, Nat.mod_add_mod]
    obtain ⟨mid, hmid, hbusy', hreleased', hf', hnext', hhanded⟩ :=
      step_round hf hreleased hbusy face deadline
    rw [hfresh] at hmid hnext' hhanded
    obtain ⟨m', hrun, hhanded'⟩ := ih (k + 1) mid hf' hreleased' hbusy' hnext'
    refine ⟨m', ?_, ?_⟩
    · rw [List.range'_succ, List.flatMap_cons, List.foldlM_append, hmid]
      exact hrun
    · rw [hhanded', hhanded, List.range'_succ, List.map_cons, List.append_assoc]
      rfl

/-- The branches of one query, all on face 4, each taken back before the next. -/
def fannedOut (n : ℕ) : List (Act ℕ Unit) :=
  .newFan 9 77 () :: (List.range' 0 n).flatMap fun i => round 4 0 10 ((i + 1) % 2 ^ 64)

theorem handed_fannedOut (n : ℕ) :
    ∃ m' : Mesh ℕ Unit, (fannedOut n).foldlM (fun m act => m.step act) new = some m' ∧
      (m'.handed 4).map Prod.fst = (List.range' 0 n).map fun i => (i + 1) % 2 ^ 64 := by
  have hfan : Function.update (new : Mesh ℕ Unit).fans 0 (some ⟨1, 9, 77, ()⟩) 0 =
      some ⟨1, 9, 77, ()⟩ := Function.update_self ..
  obtain ⟨m', hrun, hhanded⟩ := @steps_rounds _ _ _ 0 4 10 0 n
    ({ (new : Mesh ℕ Unit) with
      fans := Function.update (new : Mesh ℕ Unit).fans 0 (some ⟨1, 9, 77, ()⟩)
      made := 1 }) ⟨_, hfan⟩ rfl rfl rfl
  exact ⟨m', hrun, hhanded⟩

/-- Two to the sixty-four branches on one face, and one more: its id has been handed out before. -/
theorem ids_repeat :
    ∃ m' : Mesh ℕ Unit, (fannedOut (2 ^ 64 + 1)).foldlM (fun m act => m.step act) new = some m' ∧
      ¬ ((m'.handed 4).map Prod.fst).Nodup := by
  obtain ⟨m', hrun, hids⟩ := handed_fannedOut (2 ^ 64 + 1)
  refine ⟨m', hrun, fun hnodup => ?_⟩
  rw [hids] at hnodup
  have hfirst : 0 ∈ List.range' 0 (2 ^ 64 + 1) := List.mem_range'_1.mpr ⟨le_rfl, by omega⟩
  have hlast : 2 ^ 64 ∈ List.range' 0 (2 ^ 64 + 1) := List.mem_range'_1.mpr ⟨Nat.zero_le _, by omega⟩
  have hsame := List.inj_on_of_nodup_map hnodup hfirst hlast (by decide)
  omega

end Mesh

end WatchingZenoh.PendingQueries
