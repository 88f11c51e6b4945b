import WatchingZenoh.PendingQueriesCounts

/-! The steps of the tasks, each of which leaves every fan's count at the number of its holders. What a
task does takes several sections of the lock, and the count is right between them as well. -/

namespace WatchingZenoh.PendingQueries

open KeyedRows

namespace Mesh

variable {Face Qos : Type} [DecidableEq Face] {m : Mesh Face Qos}

omit [DecidableEq Face] in
theorem Counted.release (h : m.Counted) {fan : ℕ} (hheld : m.held fan = true)
    (hstarting : m.starting fan = false) :
    ({ m.holderEnded fan with released := Function.update m.released fan true } :
      Mesh Face Qos).Counted := by
  obtain ⟨⟨f, hf⟩, hreleased⟩ := held_iff.mp hheld
  have hlt : fan < m.made := (h.known fan).mp (by simp [hf])
  have hrest : m.holderEnded fan = { m with
      fans := (m.holderEnded fan).fans, reports := (m.holderEnded fan).reports } := by
    rw [holderEnded, hf]
    rfl
  rw [hrest]
  refine h.ended hlt rfl rfl rfl rfl rfl (fun g hg => ?_) h.ends (fun g hg => ?_) fun g => ?_
  · simp only [Function.update_of_ne (by omega : g ≠ fan)]
    exact h.unreleased g hg
  · have hg' : m.starting g = true := hg
    have hne : g ≠ fan := fun heq => by simp [heq, hstarting] at hg'
    have hheld' := h.starts g hg'
    refine ⟨hheld', ?_⟩
    simp only [Function.update_of_ne hne]
    exact (held_iff.mp hheld').2
  · have hsame : ({ m with
        fans := (m.holderEnded fan).fans
        reports := (m.holderEnded fan).reports
        released := Function.update m.released fan true } : Mesh Face Qos).holders g =
        (if Function.update m.released fan true g then 0 else 1) + countFan g m.table.returns +
          m.ending g + if m.starting g then 1 else 0 := rfl
    rw [hsame, holders]
    by_cases hg : g = fan
    · subst hg
      rw [Function.update_self, hreleased]
      simp only [Bool.false_eq_true, if_false, if_true]
      omega
    · rw [Function.update_of_ne hg, if_neg hg, Nat.add_zero]

omit [DecidableEq Face] in
theorem Counted.close (h : m.Counted) {branch : ℕ × QueryReturn Face Qos}
    {rest : List (ℕ × QueryReturn Face Qos)} {victims : List (Face × ℕ)}
    (hbusy : m.busy = some (.close (branch :: rest) victims)) :
    ({ m.holderEnded branch.1 with busy := some (.close rest victims) } : Mesh Face Qos).Counted := by
  have hlt := h.ends _ _ hbusy branch (by simp)
  obtain ⟨f, hf⟩ := Option.isSome_iff_exists.mp ((h.known branch.1).mpr hlt)
  have hrest : m.holderEnded branch.1 = { m with
      fans := (m.holderEnded branch.1).fans, reports := (m.holderEnded branch.1).reports } := by
    rw [holderEnded, hf]
    rfl
  rw [hrest]
  refine h.ended hlt rfl rfl rfl rfl rfl h.unreleased (fun branches victims' heq b hb => ?_)
    (fun g hg => by simp [starting] at hg) fun g => ?_
  · cases heq
    exact h.ends _ _ hbusy b (by simp [hb])
  · have hstarting : m.starting g = false := by rw [starting, hbusy]
    have hending : m.ending g = rest.countP (fun b => b.1 = g) + if g = branch.1 then 1 else 0 := by
      rw [ending, hbusy]
      simp only [List.countP_cons, decide_eq_true_eq, @eq_comm _ g]
    have hsame : ({ m with
        fans := (m.holderEnded branch.1).fans
        reports := (m.holderEnded branch.1).reports
        busy := some (.close rest victims) } : Mesh Face Qos).holders g =
        (if m.released g then 0 else 1) + countFan g m.table.returns +
          rest.countP (fun b => b.1 = g) + 0 := rfl
    rw [hsame, holders, hstarting, hending]
    simp only [Bool.false_eq_true, if_false]
    omega

omit [DecidableEq Face] in
/-- Only the table, the call under way and the ids handed out change, and every fan keeps its number
of holders. -/
theorem Counted.moved (h : m.Counted) {table : PendingQueries Face}
    {busy : Option (Section Face Qos)} {handed : Face → List (ℕ × ℕ)}
    (hkeyed : Keyed table.returns) (hentries : ∀ e ∈ table.returns, e.2.fan < m.made)
    (hends : ∀ branches victims, busy = some (.close branches victims) →
      ∀ b ∈ branches, b.1 < m.made)
    (hstarts : ∀ fan, ({ m with busy := busy } : Mesh Face Qos).starting fan = false)
    (hholders : ∀ fan, m.holders fan =
      ({ m with table := table, busy := busy, handed := handed } : Mesh Face Qos).holders fan)
    (hnumbered : ∀ face, (handed face).map Prod.fst =
      (List.range (handed face).length).map fun i => (i + 1) % 2 ^ 64)
    (hnext : ∀ face, table.nextQid face = (handed face).length % 2 ^ 64)
    (hfew : ∀ face, (handed face).length ≤ 2 ^ 64)
    (hkept : ∀ e ∈ table.returns, (e.1.2, e.2.fan) ∈ handed e.1.1) :
    ({ m with table := table, busy := busy, handed := handed } : Mesh Face Qos).Counted :=
  { keyed := hkeyed
    known := h.known
    unreleased := h.unreleased
    entries := hentries
    ends := hends
    starts := fun fan hfan => by
      have := hstarts fan
      simp_all [starting]
    live := fun fan f hf => (h.live fan f hf).trans (hholders fan)
    reported := h.reported
    returned := h.returned
    numbered := hnumbered
    next := hnext
    few := hfew
    kept := hkept }

omit [DecidableEq Face] in
theorem Counted.countP_branches (h : m.Counted) {entries : List ((Face × ℕ) × PendingReturn)}
    (hentries : ∀ e ∈ entries, e.2.fan < m.made) (fan : ℕ) :
    (m.branches entries).countP (fun b => b.1 = fan) = countFan fan entries := by
  induction entries with
  | nil => rfl
  | cons e entries ih =>
    obtain ⟨f, hf⟩ := Option.isSome_iff_exists.mp ((h.known e.2.fan).mpr (hentries e (by simp)))
    have hcons : m.branches (e :: entries) = (e.2.fan, f.queryReturn) :: m.branches entries := by
      rw [branches, List.filterMap_cons, hf]
      rfl
    rw [hcons, List.countP_cons, countFan, List.countP_cons, ih fun e' he' => hentries e' (by simp [he'])]
    rfl

omit [DecidableEq Face] in
theorem lt_of_mem_branches {entries : List ((Face × ℕ) × PendingReturn)}
    (hentries : ∀ e ∈ entries, e.2.fan < m.made) {b : ℕ × QueryReturn Face Qos}
    (hb : b ∈ m.branches entries) : b.1 < m.made := by
  obtain ⟨e, he, heq⟩ := List.mem_filterMap.mp hb
  rw [Option.map_eq_some_iff] at heq
  obtain ⟨f, -, rfl⟩ := heq
  exact hentries e he

theorem Counted.takeOut (h : m.Counted) (hstarting : ∀ fan, m.starting fan = false)
    (hending : ∀ fan, m.ending fan = 0) (key : Face × ℕ) (victims : List (Face × ℕ)) :
    (m.takeOut key victims).Counted := by
  rw [Mesh.takeOut]
  rcases hrow : m.table.lookup key.1 key.2 with _ | ret
  · refine h.moved h.keyed h.entries (fun branches victims' heq b hb => ?_) (fun _ => rfl)
      (fun fan => ?_) h.numbered h.next h.few h.kept
    · cases heq
      simp at hb
    · rw [holders, hstarting, hending]
      rfl
  · have hperm := perm_filter_ne h.keyed hrow
    have hmem : (key, ret) ∈ m.table.returns := (row_eq_some_iff h.keyed).mp hrow
    have hentries : ∀ e ∈ [(key, ret)], e.2.fan < m.made := by
      intro e he
      rw [List.mem_singleton.mp he]
      exact h.entries _ hmem
    refine h.moved (keyed_filter h.keyed _) (fun e he => h.entries e (List.mem_filter.mp he).1)
      (fun branches victims' heq b hb => ?_) (fun _ => rfl) (fun fan => ?_) h.numbered h.next
      h.few (fun e he => h.kept e (List.mem_filter.mp he).1)
    · cases heq
      exact lt_of_mem_branches hentries hb
    · have hsplit : countFan fan m.table.returns =
          countFan fan (m.table.remove key).returns + countFan fan [(key, ret)] := by
        rw [countFan, hperm.countP_eq, List.countP_cons, PendingQueries.remove]
        simp [countFan]
      have hsame : ({ m with
          table := m.table.remove key
          busy := some (.close (m.branches [(key, ret)]) victims) } : Mesh Face Qos).holders fan =
          (if m.released fan then 0 else 1) + countFan fan (m.table.remove key).returns +
            (m.branches [(key, ret)]).countP (fun b => b.1 = fan) + 0 := rfl
      rw [holders, hstarting, hending, hsplit]
      refine Eq.trans ?_ hsame.symm
      rw [h.countP_branches hentries]
      simp only [Bool.false_eq_true, if_false]
      omega

theorem Counted.removeFace (h : m.Counted) (hstarting : ∀ fan, m.starting fan = false)
    (hending : ∀ fan, m.ending fan = 0) (face : Face)
    {order : List ((Face × ℕ) × PendingReturn)} (horder : order.Perm (m.table.onFace face)) :
    ({ m with
      table := m.table.dropFace face
      busy := some (.close (m.branches order) [])
      handed := Function.update m.handed face [] } : Mesh Face Qos).Counted := by
  have hentries : ∀ e ∈ order, e.2.fan < m.made := fun e he =>
    h.entries e (List.mem_filter.mp (horder.mem_iff.mp he)).1
  refine h.moved (keyed_filter h.keyed _) (fun e he => h.entries e (List.mem_filter.mp he).1)
    (fun branches victims' heq b hb => ?_) (fun _ => rfl) (fun fan => ?_) (fun face' => ?_)
    (fun face' => ?_) (fun face' => ?_) (fun e he => ?_)
  · cases heq
    exact lt_of_mem_branches hentries hb
  · have hsplit : countFan fan m.table.returns =
        countFan fan (m.table.dropFace face).returns + countFan fan order := by
      have hpart : countFan fan m.table.returns = countFan fan (m.table.onFace face) +
          countFan fan (m.table.dropFace face).returns := by
        rw [countFan, List.countP_eq_countP_filter_add _ _ (fun e => decide (e.1.1 = face))]
        simp [countFan, PendingQueries.onFace, PendingQueries.dropFace]
      have hcount : countFan fan order = countFan fan (m.table.onFace face) := horder.countP_eq _
      rw [hpart, hcount, Nat.add_comm]
    have hsame : ({ m with
        table := m.table.dropFace face
        busy := some (.close (m.branches order) [])
        handed := Function.update m.handed face [] } : Mesh Face Qos).holders fan =
        (if m.released fan then 0 else 1) + countFan fan (m.table.dropFace face).returns +
          (m.branches order).countP (fun b => b.1 = fan) + 0 := rfl
    rw [holders, hstarting, hending, hsplit]
    refine Eq.trans ?_ hsame.symm
    rw [h.countP_branches hentries]
    simp only [Bool.false_eq_true, if_false]
    omega
  · by_cases hface : face' = face
    · rw [hface, Function.update_self]
      rfl
    · rw [Function.update_of_ne hface]
      exact h.numbered face'
  · rw [PendingQueries.dropFace]
    by_cases hface : face' = face
    · simp [hface]
    · simp only [Function.update_of_ne hface]
      exact h.next face'
  · by_cases hface : face' = face
    · rw [hface, Function.update_self]
      exact Nat.zero_le _
    · rw [Function.update_of_ne hface]
      exact h.few face'
  · obtain ⟨hmem, hface⟩ := List.mem_filter.mp he
    have hne : e.1.1 ≠ face := by simpa using hface
    rw [Function.update_of_ne hne]
    exact h.kept e hmem

omit [DecidableEq Face] in
theorem Counted.fresh (h : m.Counted) {face : Face} (hroom : (m.handed face).length < 2 ^ 64) :
    m.table.freshQid face ∉ (m.handed face).map Prod.fst := by
  rw [PendingQueries.freshQid, h.next, h.numbered, List.mem_map]
  rintro ⟨i, hi, heq⟩
  rw [List.mem_range] at hi
  omega

theorem Counted.enter (h : m.Counted) {face : Face} {fan deadline : ℕ}
    (hbusy : m.busy = some (.allocate face fan deadline))
    (hroom : (m.handed face).length < 2 ^ 64) :
    ({ m with
      table := m.table.insert face ⟨fan, deadline⟩
      busy := none
      handed := Function.update m.handed face
        (m.handed face ++ [(m.table.freshQid face, fan)]) } : Mesh Face Qos).Counted := by
  have hstart : ∀ g, m.starting g = decide (fan = g) := fun g => by rw [starting, hbusy]
  obtain ⟨⟨f, hf⟩, -⟩ := held_iff.mp (h.starts fan (by rw [hstart]; simp))
  have hlt : fan < m.made := (h.known fan).mp (by simp [hf])
  have hmissing : row m.table.returns (face, m.table.freshQid face) = none := by
    rw [row_eq_none_iff]
    intro ret hret
    exact h.fresh hroom (List.mem_map.mpr ⟨_, h.kept _ hret, rfl⟩)
  have hreturns : (m.table.insert face ⟨fan, deadline⟩).returns =
      ((face, m.table.freshQid face), ⟨fan, deadline⟩) :: m.table.returns := by
    rw [PendingQueries.insert, filter_ne_of_missing hmissing]
  refine h.moved ?_ (fun e he => ?_) (fun _ _ heq => by simp at heq) (fun _ => rfl) (fun g => ?_)
    (fun face' => ?_) (fun face' => ?_) (fun face' => ?_) (fun e he => ?_)
  · rw [hreturns, Keyed, List.map_cons, List.nodup_cons]
    exact ⟨fun hmem => row_ne_none_iff.mpr hmem hmissing, h.keyed⟩
  · rw [hreturns] at he
    rcases List.mem_cons.mp he with rfl | he
    · exact hlt
    · exact h.entries e he
  · have hending : m.ending g = 0 := by rw [ending, hbusy]
    have hsame : ({ m with
        table := m.table.insert face ⟨fan, deadline⟩
        busy := none
        handed := Function.update m.handed face
          (m.handed face ++ [(m.table.freshQid face, fan)]) } : Mesh Face Qos).holders g =
        (if m.released g then 0 else 1) + countFan g (m.table.insert face ⟨fan, deadline⟩).returns +
          0 + 0 := rfl
    rw [hsame, holders, hending, hstart, hreturns, countFan, countFan, List.countP_cons]
    simp only [decide_eq_true_eq]
    omega
  · by_cases hface : face' = face
    · subst hface
      rw [Function.update_self, List.map_append, h.numbered, List.length_append, List.length_singleton,
        List.range_succ, List.map_append, List.map_singleton, List.map_singleton,
        PendingQueries.freshQid, h.next, Nat.mod_add_mod]
    · rw [Function.update_of_ne hface]
      exact h.numbered face'
  · rw [PendingQueries.insert]
    by_cases hface : face' = face
    · subst hface
      simp only [Function.update_self]
      rw [PendingQueries.freshQid, h.next, List.length_append, List.length_singleton, Nat.mod_add_mod]
    · simp only [Function.update_of_ne hface]
      exact h.next face'
  · by_cases hface : face' = face
    · rw [hface, Function.update_self, List.length_append, List.length_singleton]
      exact hroom
    · rw [Function.update_of_ne hface]
      exact h.few face'
  · rw [hreturns] at he
    rcases List.mem_cons.mp he with rfl | he
    · rw [Function.update_self]
      exact List.mem_append_right _ (by simp)
    · have hold := h.kept e he
      by_cases hface : e.1.1 = face
      · rw [hface] at hold ⊢
        rw [Function.update_self]
        exact List.mem_append_left _ hold
      · rw [Function.update_of_ne hface]
        exact hold

omit [DecidableEq Face] in
theorem Counted.allocate (h : m.Counted) (hstarting : ∀ fan, m.starting fan = false)
    (hending : ∀ fan, m.ending fan = 0) {fan : ℕ} (hheld : m.held fan = true) (face : Face)
    (deadline : ℕ) :
    ({ m.branchStarted fan with busy := some (.allocate face fan deadline) } :
      Mesh Face Qos).Counted := by
  obtain ⟨⟨f, hf⟩, hreleased⟩ := held_iff.mp hheld
  have hlive := h.live fan f hf
  have hpos : 0 < f.live := by
    rw [hlive, holders, hreleased]
    simp only [Bool.false_eq_true, if_false]
    omega
  have hmap : ∀ g, ((m.branchStarted fan).fans g).map QueryFan.queryReturn =
      (m.fans g).map QueryFan.queryReturn := fun g => by
    rw [branchStarted]
    dsimp only
    split_ifs
    · rw [Option.map_map]
      rfl
    · rfl
  have hsome : ∀ g, ((m.branchStarted fan).fans g).isSome = (m.fans g).isSome := fun g => by
    have := congrArg Option.isSome (hmap g)
    simpa using this
  refine
    { keyed := h.keyed
      known := fun g => (iff_of_eq (congrArg (· = true) (hsome g))).trans (h.known g)
      unreleased := h.unreleased
      entries := h.entries
      ends := fun _ _ heq => by simp at heq
      starts := fun g hg => ?_
      live := fun g f' hf' => ?_
      reported := fun g => ?_
      returned := fun r hr => (hmap r.1).trans (h.returned r hr)
      numbered := h.numbered
      next := h.next
      few := h.few
      kept := h.kept }
  · have hg' : fan = g := by simpa [starting] using hg
    subst hg'
    rw [held, Bool.and_eq_true]
    exact ⟨(hsome fan).trans (by rw [hf]; rfl), by simp [branchStarted, hreleased]⟩
  · have hsame : ({ m.branchStarted fan with busy := some (.allocate face fan deadline) } :
        Mesh Face Qos).holders g =
        (if m.released g then 0 else 1) + countFan g m.table.returns + 0 +
          if decide (fan = g) then 1 else 0 := rfl
    have hholders : m.holders g =
        (if m.released g then 0 else 1) + countFan g m.table.returns + 0 + 0 := by
      rw [holders, hstarting, hending]
      rfl
    rw [hsame]
    by_cases hg : g = fan
    · subst hg
      have hf'' : f' = { f with live := f.live + 1 } := by
        have : (m.branchStarted g).fans g = some { f with live := f.live + 1 } := by
          simp [branchStarted, hf]
        exact Option.some.inj (hf'.symm.trans this)
      rw [hf'']
      simp only [decide_true, if_true]
      omega
    · have hf'' : m.fans g = some f' := by
        have : (m.branchStarted fan).fans g = m.fans g := if_neg hg
        exact this.symm.trans hf'
      rw [h.live g f' hf'', hholders, decide_eq_false (Ne.symm hg)]
      rfl
  · have hany : ((m.branchStarted fan).fans g).any (fun f => decide (f.live = 0)) =
        (m.fans g).any fun f => decide (f.live = 0) := by
      by_cases hg : g = fan
      · subst hg
        have : (m.branchStarted g).fans g = some { f with live := f.live + 1 } := by
          simp [branchStarted, hf]
        rw [this, hf]
        simp [hpos.ne']
      · have : (m.branchStarted fan).fans g = m.fans g := if_neg hg
        rw [this]
    exact (h.reported g).trans (by rw [← hany])

end Mesh

end WatchingZenoh.PendingQueries
