import WatchingZenoh.PendingQueries

/-! The count of a fan is the number of its holders: its routing call while it has not let go, the
entries of its branches, and the branches a call under way has counted already or not ended yet. -/

namespace WatchingZenoh.PendingQueries

open KeyedRows

variable {Face Qos : Type} [DecidableEq Face]

section Entries

variable {rows : List ((Face × ℕ) × PendingReturn)} {key : Face × ℕ} {ret : PendingReturn}

def countFan (fan : ℕ) (rows : List ((Face × ℕ) × PendingReturn)) : ℕ :=
  rows.countP fun e => e.2.fan = fan

omit [DecidableEq Face] in
theorem countFan_pos_iff {fan : ℕ} : countFan fan rows ≠ 0 ↔ ∃ e ∈ rows, e.2.fan = fan := by
  rw [← Nat.pos_iff_ne_zero, countFan, List.countP_pos_iff]
  simp

omit [DecidableEq Face] in
theorem keyed_filter (h : Keyed rows) (p : (Face × ℕ) × PendingReturn → Bool) :
    Keyed (rows.filter p) :=
  h.sublist (List.filter_sublist.map _)

theorem perm_filter_ne (h : Keyed rows) (hrow : row rows key = some ret) :
    rows.Perm ((key, ret) :: rows.filter (·.1 ≠ key)) := by
  have hmem : (key, ret) ∈ rows := (row_eq_some_iff h).mp hrow
  have hrest : rows.filter (·.1 ≠ key) = rows.erase (key, ret) := by
    have hnodup : rows.Nodup := List.Nodup.of_map _ h
    rw [hnodup.erase_eq_filter]
    refine List.filter_congr fun e he => ?_
    by_cases hkey : e.1 = key
    · have heq : e = (key, ret) := by
        have hrow' := (row_eq_some_iff (v := e.2) h).mpr (hkey ▸ he : (key, e.2) ∈ rows)
        rw [hrow] at hrow'
        cases hrow'
        exact Prod.ext hkey rfl
      simp [heq]
    · have hne : e ≠ (key, ret) := fun heq => hkey (congrArg Prod.fst heq)
      simp [hkey, hne]
  rw [hrest]
  exact List.perm_cons_erase hmem

theorem filter_ne_of_missing (hrow : row rows key = none) : rows.filter (·.1 ≠ key) = rows := by
  rw [List.filter_eq_self]
  intro e he
  have hne : e.1 ≠ key := fun heq => row_eq_none_iff.mp hrow e.2 (heq ▸ he)
  simpa using hne

end Entries

namespace Mesh

variable (m : Mesh Face Qos)

/-- The branches of a fan that are out of the table and not ended yet. -/
def ending (fan : ℕ) : ℕ :=
  match m.busy with
  | some (.close branches _) => branches.countP fun b => b.1 = fan
  | _ => 0

def holders (fan : ℕ) : ℕ :=
  (if m.released fan then 0 else 1) + countFan fan m.table.returns + m.ending fan +
    if m.starting fan then 1 else 0

structure Counted : Prop where
  keyed : Keyed m.table.returns
  known : ∀ fan, (m.fans fan).isSome ↔ fan < m.made
  unreleased : ∀ fan, m.made ≤ fan → m.released fan = false
  entries : ∀ e ∈ m.table.returns, e.2.fan < m.made
  ends : ∀ branches victims, m.busy = some (.close branches victims) → ∀ b ∈ branches, b.1 < m.made
  starts : ∀ fan, m.starting fan = true → m.held fan = true
  live : ∀ fan f, m.fans fan = some f → f.live = m.holders fan
  reported : ∀ fan, m.reports.countP (fun r => r.1 = fan) =
    if (m.fans fan).any (fun f => f.live = 0) then 1 else 0
  returned : ∀ r ∈ m.reports, (m.fans r.1).map QueryFan.queryReturn = some r.2
  numbered : ∀ face, (m.handed face).map Prod.fst =
    (List.range (m.handed face).length).map fun i => (i + 1) % 2 ^ 64
  next : ∀ face, m.table.nextQid face = (m.handed face).length % 2 ^ 64
  few : ∀ face, (m.handed face).length ≤ 2 ^ 64
  kept : ∀ e ∈ m.table.returns, (e.1.2, e.2.fan) ∈ m.handed e.1.1

variable {m}

omit [DecidableEq Face] in
theorem counted_new : (new : Mesh Face Qos).Counted where
  keyed := keyed_nil
  known := by simp [new]
  unreleased := fun _ _ => rfl
  entries := by simp [new]
  ends := by simp [new]
  starts := by simp [new, starting]
  live := by simp [new]
  reported := by simp [new]
  returned := by simp [new]
  numbered := fun _ => rfl
  next := fun _ => rfl
  few := fun _ => Nat.zero_le _
  kept := by simp [new]

omit [DecidableEq Face] in
theorem held_iff {fan : ℕ} : m.held fan = true ↔ (∃ f, m.fans fan = some f) ∧ m.released fan = false := by
  rw [held, Bool.and_eq_true, Option.isSome_iff_exists, Bool.not_eq_true']

omit [DecidableEq Face] in
theorem Counted.holders_of_made (h : m.Counted) {fan : ℕ} (hfan : m.made ≤ fan) :
    m.holders fan = 1 := by
  have hcount : countFan fan m.table.returns = 0 := by
    by_contra hne
    obtain ⟨e, he, rfl⟩ := countFan_pos_iff.mp hne
    exact absurd (h.entries e he) (Nat.not_lt.mpr hfan)
  have hending : m.ending fan = 0 := by
    rw [ending]
    split
    · next branches victims hbusy =>
      rw [List.countP_eq_zero]
      intro b hb
      have hlt := h.ends branches victims hbusy b hb
      simp only [decide_eq_true_eq]
      omega
    · rfl
  have hstarting : m.starting fan = false := by
    by_contra hne
    obtain ⟨⟨f, hf⟩, -⟩ := held_iff.mp (h.starts fan (by simpa using hne))
    exact absurd ((h.known fan).mp (by simp [hf])) (Nat.not_lt.mpr hfan)
  rw [holders, hcount, hending, hstarting, h.unreleased fan hfan]
  rfl

omit [DecidableEq Face] in
theorem Counted.newFan (h : m.Counted) (inbound : Face) (rid : ℕ) (qos : Qos) :
    ({ m with
      fans := Function.update m.fans m.made (some ⟨1, inbound, rid, qos⟩)
      made := m.made + 1 } : Mesh Face Qos).Counted := by
  have hnone : m.fans m.made = none := by
    have := (h.known m.made).not.mpr (lt_irrefl _)
    simpa using this
  have hreported : m.reports.countP (fun r => r.1 = m.made) = 0 := by
    rw [h.reported, hnone]
    rfl
  refine
    { h with
      known := fun fan => ?_
      unreleased := fun fan hfan => h.unreleased fan ((Nat.le_succ _).trans hfan)
      entries := fun e he => (h.entries e he).trans (Nat.lt_succ_self _)
      ends := fun branches victims hbusy b hb =>
        (h.ends branches victims hbusy b hb).trans (Nat.lt_succ_self _)
      starts := fun fan hfan => ?_
      live := fun fan f hf => ?_
      reported := fun fan => ?_
      returned := fun r hr => ?_ }
  · by_cases hfan : fan = m.made
    · simp [hfan]
    · simp only [Function.update_of_ne hfan]
      rw [h.known]
      omega
  · obtain ⟨⟨f, hf⟩, hreleased⟩ := held_iff.mp (h.starts fan hfan)
    have hne : fan ≠ m.made := fun heq => by simp [heq, hnone] at hf
    rw [held_iff]
    exact ⟨⟨f, by simp only [Function.update_of_ne hne, hf]⟩, hreleased⟩
  · by_cases hfan : fan = m.made
    · subst hfan
      simp only [Function.update_self, Option.some.injEq] at hf
      subst hf
      exact (h.holders_of_made le_rfl).symm
    · simp only [Function.update_of_ne hfan] at hf
      exact h.live fan f hf
  · by_cases hfan : fan = m.made
    · subst hfan
      simpa using hreported
    · simp only [Function.update_of_ne hfan]
      exact h.reported fan
  · have hne : r.1 ≠ m.made := fun heq => by
      have := h.returned r hr
      simp [heq, hnone] at this
    simp only [Function.update_of_ne hne]
    exact h.returned r hr

omit [DecidableEq Face] in
theorem Counted.ended (h : m.Counted) {m' : Mesh Face Qos} {fan : ℕ}
    (hlt : fan < m.made) (hfans : m'.fans = (m.holderEnded fan).fans)
    (hreports : m'.reports = (m.holderEnded fan).reports) (hmade : m'.made = m.made)
    (htable : m'.table = m.table) (hhanded : m'.handed = m.handed)
    (hreleased : ∀ g, m.made ≤ g → m'.released g = false)
    (hends : ∀ branches victims, m'.busy = some (.close branches victims) →
      ∀ b ∈ branches, b.1 < m.made)
    (hstarts : ∀ g, m'.starting g = true → m.held g = true ∧ m'.released g = false)
    (hholders : ∀ g, m.holders g = m'.holders g + if g = fan then 1 else 0) : m'.Counted := by
  obtain ⟨f, hf⟩ : ∃ f, m.fans fan = some f := Option.isSome_iff_exists.mp ((h.known fan).mpr hlt)
  have hlive := h.live fan f hf
  have hpos : f.live = m'.holders fan + 1 := by
    rw [hlive, hholders fan, if_pos rfl]
  have hfans' : m'.fans = Function.update m.fans fan (some { f with live := f.live - 1 }) := by
    rw [hfans, holderEnded, hf]
    rfl
  have hreports' : m'.reports =
      if f.live = 1 then m.reports ++ [(fan, f.queryReturn)] else m.reports := by
    rw [hreports, holderEnded, hf]
    rfl
  have hreturn : ∀ g, (m'.fans g).map QueryFan.queryReturn = (m.fans g).map QueryFan.queryReturn := by
    intro g
    rw [hfans']
    by_cases hg : g = fan
    · rw [hg, Function.update_self, hf]
      rfl
    · rw [Function.update_of_ne hg]
  have hsome : ∀ g, (m'.fans g).isSome = (m.fans g).isSome := fun g => by
    have := congrArg Option.isSome (hreturn g)
    simpa using this
  refine
    { keyed := htable ▸ h.keyed
      known := fun g => by rw [hsome, h.known, hmade]
      unreleased := fun g hg => hreleased g (hmade ▸ hg)
      entries := by rw [htable, hmade]; exact h.entries
      ends := by rw [hmade]; exact hends
      starts := fun g hg => ?_
      live := fun g f' hf' => ?_
      reported := fun g => ?_
      returned := fun r hr => ?_
      numbered := by rw [hhanded]; exact h.numbered
      next := by rw [hhanded, htable]; exact h.next
      few := by rw [hhanded]; exact h.few
      kept := by rw [hhanded, htable]; exact h.kept }
  · obtain ⟨hheld, hrel⟩ := hstarts g hg
    rw [held, hsome, hrel]
    rw [held, Bool.and_eq_true] at hheld
    simp [hheld.1]
  · rw [hfans'] at hf'
    by_cases hg : g = fan
    · subst hg
      rw [Function.update_self, Option.some.injEq] at hf'
      subst hf'
      exact Nat.sub_eq_of_eq_add hpos
    · rw [Function.update_of_ne hg] at hf'
      rw [h.live g f' hf', hholders g, if_neg hg, Nat.add_zero]
  · have hg := h.reported g
    rw [hreports', hfans']
    by_cases hgf : g = fan
    · subst hgf
      rw [hf] at hg
      rw [Function.update_self]
      simp only [Option.any_some, decide_eq_true_eq] at hg ⊢
      rw [if_neg (by omega)] at hg
      by_cases hone : f.live = 1
      · rw [if_pos hone, if_pos (by omega), List.countP_append, hg]
        simp
      · rw [if_neg hone, if_neg (by omega), hg]
    · rw [Function.update_of_ne hgf]
      split_ifs with h1 h2 h2
      · rw [List.countP_append, hg, if_pos h2]
        simp [Ne.symm hgf]
      · rw [List.countP_append, hg, if_neg h2]
        simp [Ne.symm hgf]
      · rw [hg, if_pos h2]
      · rw [hg, if_neg h2]
  · rw [hreturn]
    rw [hreports'] at hr
    split_ifs at hr
    · rcases List.mem_append.mp hr with hr | hr
      · exact h.returned r hr
      · rw [List.mem_singleton.mp hr, hf]
        rfl
    · exact h.returned r hr

end Mesh

end WatchingZenoh.PendingQueries
