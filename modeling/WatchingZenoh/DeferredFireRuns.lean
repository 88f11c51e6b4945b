import WatchingZenoh.DeferredFireTurns

/-! Runs of a listener's cell: any threads, taking and using tickets in any order, with kills in
between. An invariant says what has been served and what waits, and a measure that every step lowers
ends each schedule. -/

namespace WatchingZenoh.DeferredFire

variable {F : Type}

section Steps

variable {callback : F} {past : List (Op F)} {s : System F} {m : ℕ} {done : List ℕ}

theorem eq_singleton_of_getElem? {α : Type} {l : List α} {i : ℕ} {x : α} (hlen : l.length ≤ 1)
    (h : l[i]? = some x) : i = 0 ∧ l = [x] := by
  obtain ⟨hlt, -⟩ := List.getElem?_eq_some_iff.mp h
  obtain rfl : i = 0 := by omega
  obtain ⟨y, rfl⟩ := List.length_eq_one_iff.mp (by omega : l.length = 1)
  refine ⟨rfl, ?_⟩
  simpa using h

theorem Inv.dead_advance (h : Inv callback past s) (hdead : s.cell.dead = true) (i : ℕ) :
    Inv callback (past ++ [.advance i]) (s.step (.advance i)) := by
  obtain ⟨m, done, hordered, hlive | ⟨hstopped, hclosed⟩⟩ := h
  · rw [hlive.dead] at hdead
    cases hdead
  have hclosed' : Closed s m (past ++ [.advance i]) := hclosed.later (.advance i) fun _ _ => rfl
  have hparked := hstopped.parked
  have hcallback := hstopped.callback
  rw [System.step]
  cases hr : s.runners[i]? with
  | none => exact ⟨m, done, hordered, .inr ⟨hstopped, hclosed'⟩⟩
  | some r =>
    obtain ⟨rfl, hrunners⟩ := eq_singleton_of_getElem? hstopped.runners hr
    have hcurrent : s.current = r.current := by simp [System.current, hrunners]
    cases r with
    | mine number f slot =>
      refine ⟨m, done ++ [number], hordered.finish ⟨rfl, rfl, rfl⟩ hcurrent ?_ rfl,
        .inr ⟨⟨hdead, hparked, hcallback, ?_⟩, hclosed'⟩⟩
      · simp [System.current, hrunners, Runner.current]
      · simp [hrunners]
    | loop slot =>
      simp only
      rw [System.runParked, if_pos hdead]
      refine ⟨m, done, hordered.same ⟨rfl, rfl, rfl⟩ ?_ rfl,
        .inr ⟨⟨hdead, rfl, hcallback, ?_⟩, hclosed'⟩⟩
      · simp [System.current, hrunners, Runner.current]
      · simp [hrunners]
    | serving number call slot =>
      cases call with
      | plain f =>
        refine ⟨m, done ++ [number], hordered.finish ⟨rfl, rfl, rfl⟩ hcurrent ?_ rfl,
          .inr ⟨⟨hdead, hparked, hcallback, ?_⟩, hclosed'⟩⟩
        · simp [System.current, hrunners, Runner.current]
        · simp [hrunners]
      | last f =>
        refine ⟨m, done ++ [number], hordered.finish ⟨rfl, rfl, rfl⟩ hcurrent ?_ rfl,
          .inr ⟨⟨rfl, rfl, hcallback, ?_⟩, hclosed'⟩⟩
        · simp [System.current, hrunners, Runner.current]
        · simp [hrunners]
      | empty =>
        refine ⟨m, done, hordered.same ⟨rfl, rfl, rfl⟩ ?_ rfl,
          .inr ⟨⟨hdead, hparked, hcallback, ?_⟩, hclosed'⟩⟩
        · simp [System.current, hrunners, Runner.current, Call.real]
        · simp [hrunners]

theorem Inv.live_advance (h : Inv callback past s) (hdead : s.cell.dead = false) (i : ℕ) :
    Inv callback (past ++ [.advance i]) (s.step (.advance i)) := by
  obtain ⟨m, done, hordered, hlive | ⟨hstopped, -⟩⟩ := h
  swap
  · rw [hstopped.dead] at hdead
    cases hdead
  have hsame : Inv callback (past ++ [.advance i]) s := ⟨m, done, hordered, .inl hlive⟩
  have hstop : ¬ s.cell.dead = true := by simp [hdead]
  rw [System.step]
  cases hr : s.runners[i]? with
  | none => exact hsame
  | some r =>
    obtain ⟨rfl, hrunners⟩ := eq_singleton_of_getElem? hlive.holder.runners_le hr
    have hcurrent : s.current = r.current := by simp [System.current, hrunners]
    cases hlive.holder with
    | rest hnone => simp [hnone] at hrunners
    | loop hloop hcallback hnext =>
      obtain rfl : r = .loop (applied s.used callback m) := by simpa [hrunners] using hloop
      simp only
      rw [System.runParked, if_neg hstop, hnext, hrunners]
      dsimp only
      cases hparked : s.cell.parkedAt m with
      | none =>
        refine ⟨m, done, hordered.same ⟨rfl, rfl, rfl⟩ hcurrent.symm rfl,
          .inl ⟨hdead, hlive.places, hlive.arriving, hlive.parked, hlive.used, ?_⟩⟩
        exact .rest rfl rfl hnext hparked
      | some call =>
        have hmem := parkedAt_some hparked
        have hserve := hlive.serve hcallback hparked
          (s.log ++ if call.real then [.began m] else [])
        have hfresh : m ∉ s.held := by
          intro hheld
          have hnodup := hlive.nodup
          rw [List.nodup_append] at hnodup
          exact hnodup.2.2 m (List.mem_append_left _ hheld) m
            (List.mem_map_of_mem (f := Prod.fst) hmem) rfl
        refine ⟨m + 1, done, hordered.begin ⟨rfl, rfl, rfl⟩ hcurrent (hlive.parked _ hmem) hfresh ?_
          ?_ rfl, .inl hserve⟩
        · exact (hlive.bounds (List.mem_append_right _ (List.mem_map_of_mem (f := Prod.fst) hmem))).2
        · simp [System.current, Runner.current]
    | mine number f hmine hcallback hnext hm hused =>
      obtain rfl : r = .mine number f (applied s.used callback number) := by
        simpa [hrunners] using hmine
      subst hm
      refine ⟨number + 1, done ++ [number], hordered.finish ⟨rfl, rfl, rfl⟩ hcurrent ?_ rfl,
        .inl ⟨hdead, hlive.places, hlive.arriving, hlive.parked, hlive.used, ?_⟩⟩
      · simp [System.current, hrunners, Runner.current]
      · refine .loop ?_ hcallback ?_
        · simp only [hrunners, List.set_cons_zero]
          rw [applied_succ hused]
          rfl
        · simp [hdead, hnext]
    | serving number call hserving hcallback hnext hm hused =>
      obtain rfl : r = .serving number call (applied s.used callback number) := by
        simpa [hrunners] using hserving
      subst hm
      cases call with
      | plain f =>
        refine ⟨number + 1, done ++ [number], hordered.finish ⟨rfl, rfl, rfl⟩ hcurrent ?_ rfl,
          .inl ⟨hdead, hlive.places, hlive.arriving, hlive.parked, hlive.used,
            .loop ?_ hcallback hnext⟩⟩
        · simp [System.current, hrunners, Runner.current]
        · simp only [hrunners, List.set_cons_zero]
          rw [applied_succ hused]
          rfl
      | last f =>
        refine ⟨number + 1, done ++ [number], hordered.finish ⟨rfl, rfl, rfl⟩ hcurrent ?_ rfl,
          .inr ⟨⟨rfl, rfl, hcallback, ?_⟩, .inr ⟨number, f, rfl, hused⟩⟩⟩
        · simp [System.current, hrunners, Runner.current]
        · simp [hrunners]
      | empty =>
        refine ⟨number + 1, done, hordered.same ⟨rfl, rfl, rfl⟩ ?_ rfl,
          .inl ⟨hdead, hlive.places, hlive.arriving, hlive.parked, hlive.used,
            .loop ?_ hcallback hnext⟩⟩
        · simp [System.current, hrunners, Runner.current, Call.real]
        · simp only [hrunners, List.set_cons_zero]
          rw [applied_succ hused]
          rfl

theorem Inv.step (h : Inv callback past s) (op : Op F) : Inv callback (past ++ [op]) (s.step op) := by
  cases op with
  | ticket => exact h.ticket
  | invoke number f => exact Inv.use (a := .call number f) h rfl rfl _
  | invokeLast number f => exact Inv.use (a := .ticket number (.last f)) h rfl rfl _
  | drop number => exact Inv.use (a := .ticket number .empty) h rfl rfl _
  | kill => exact h.kill
  | arrive i =>
    rw [System.step]
    cases ha : s.arriving[i]? with
    | none =>
      obtain ⟨m, done, hordered, hstate⟩ := h
      refine ⟨m, done, hordered, hstate.imp id ?_⟩
      rintro ⟨hdead, hclosed⟩
      exact ⟨hdead, hclosed.later _ fun _ _ => rfl⟩
    | some a =>
      cases a with
      | call number f => exact h.runCall ha _
      | ticket number call => exact h.runTicket ha _
  | advance i =>
    cases hdead : s.cell.dead with
    | true => exact h.dead_advance hdead i
    | false => exact h.live_advance hdead i

end Steps

theorem inv_new (callback : F) : Inv callback [] (System.new callback) := by
  refine ⟨0, [], ⟨Nat.le_refl _, rfl, rfl, by simp [System.new]⟩,
    .inl ⟨rfl, List.Perm.refl _, by simp [System.new], by simp [System.new, CellState.new], by simp,
      .rest rfl rfl rfl rfl⟩⟩

theorem inv_run (callback : F) (ops : List (Op F)) : Inv callback ops (System.run callback ops) := by
  induction ops using List.reverseRecOn with
  | nil => exact inv_new callback
  | append_singleton ops op ih =>
    rw [System.run, List.foldl_append]
    exact ih.step op

theorem Live.at_rest {callback : F} {s : System F} {m : ℕ} (h : Live callback s m)
    (hbound : m ≤ s.cell.issued) (harriving : s.arriving = []) (hrunners : s.runners = []) :
    s.cell.callback = some (applied s.used callback m) ∧ (m = s.cell.issued ∨ m ∈ s.held) ∧
      (s.held = [] → s.cell.parked = []) := by
  have hplaces := h.places
  rw [harriving, List.map_nil, List.append_nil] at hplaces
  cases h.holder with
  | rest _ hcallback hnext hparked =>
    have hnone : m ∉ s.cell.parked.map Prod.fst := by
      intro hmem
      obtain ⟨p, hp, hfirst⟩ := List.mem_map.mp hmem
      rw [CellState.parkedAt, Option.map_eq_none_iff, List.find?_eq_none] at hparked
      exact hparked p hp (by simpa using hfirst)
    have hheld : m = s.cell.issued ∨ m ∈ s.held := by
      rcases Nat.eq_or_lt_of_le hbound with heq | hlt
      · exact .inl heq
      · have hmem : m ∈ s.held ++ s.cell.parked.map Prod.fst := by
          rw [hplaces.mem_iff, List.mem_range'_1]
          omega
        exact .inr ((List.mem_append.mp hmem).resolve_right hnone)
    refine ⟨hcallback, hheld, fun hall => ?_⟩
    have hissued : m = s.cell.issued := hheld.resolve_right (by simp [hall])
    rw [hall, hissued, Nat.sub_self, List.nil_append] at hplaces
    exact List.map_eq_nil_iff.mp hplaces.eq_nil
  | loop hloop => simp [hrunners] at hloop
  | mine number f hmine => simp [hrunners] at hmine
  | serving number call hserving => simp [hrunners] at hserving

theorem step_dead {s : System F} (h : s.cell.dead = true) (op : Op F) :
    (s.step op).cell.dead = true ∧
      ∃ tail, (s.step op).log = s.log ++ tail ∧ ∀ number, Event.began number ∉ tail := by
  have hquiet : ∀ {s' : System F}, s'.cell.dead = true → s'.log = s.log → s'.cell.dead = true ∧
      ∃ tail, s'.log = s.log ++ tail ∧ ∀ number, Event.began number ∉ tail :=
    fun hdead hlog => ⟨hdead, [], by rw [hlog, List.append_nil], by simp⟩
  have hused : ∀ (number : ℕ) (call : Call F) (a : Arrival F), (s.use number call a).cell.dead = true ∧
      ∃ tail, (s.use number call a).log = s.log ++ tail ∧ ∀ number, Event.began number ∉ tail := by
    intro number call a
    rw [System.use]
    split_ifs <;> exact hquiet h rfl
  cases op with
  | ticket => exact hquiet h rfl
  | invoke number f => exact hused ..
  | invokeLast number f => exact hused ..
  | drop number => exact hused ..
  | kill => exact hquiet rfl rfl
  | arrive i =>
    rw [System.step]
    cases s.arriving[i]? with
    | none => exact hquiet h rfl
    | some a =>
      cases a with
      | call number f =>
        dsimp only
        rw [System.runCall, if_pos h]
        exact hquiet h rfl
      | ticket number call =>
        dsimp only
        rw [System.runTicket, if_pos h]
        exact hquiet h rfl
  | advance i =>
    rw [System.step]
    cases s.runners[i]? with
    | none => exact hquiet h rfl
    | some r =>
      cases r with
      | mine number f slot => exact ⟨h, [.ended number], rfl, by simp⟩
      | loop slot =>
        dsimp only
        rw [System.runParked, if_pos h]
        exact hquiet h rfl
      | serving number call slot =>
        cases call with
        | plain f => exact ⟨h, [.ended number], rfl, by simp⟩
        | last f => exact ⟨rfl, [.ended number], rfl, by simp⟩
        | empty => exact hquiet h rfl

theorem run_dead {s : System F} (h : s.cell.dead = true) (ops : List (Op F)) :
    ∃ tail, (ops.foldl System.step s).log = s.log ++ tail ∧ ∀ number, Event.began number ∉ tail := by
  induction ops generalizing s with
  | nil => exact ⟨[], by simp, by simp⟩
  | cons op ops ih =>
    obtain ⟨hdead, tail, hlog, htail⟩ := step_dead h op
    obtain ⟨rest, hrest, hquiet⟩ := ih hdead
    refine ⟨tail ++ rest, ?_, fun number hmem => ?_⟩
    · rw [List.foldl_cons, hrest, hlog, List.append_assoc]
    · rcases List.mem_append.mp hmem with hmem | hmem
      · exact htail number hmem
      · exact hquiet number hmem

/-- What is left to do of a thread, and of the calls that are parked. -/
def Arrival.rank : Arrival F → ℕ
  | .call _ _ => 5
  | .ticket _ _ => 4

def Runner.rank : Runner F → ℕ
  | .mine _ _ _ => 2
  | .loop _ => 1
  | .serving _ _ _ => 2

def System.rank (s : System F) : ℕ :=
  (s.arriving.map Arrival.rank).sum + (s.runners.map Runner.rank).sum + 2 * s.cell.parked.length

/-- The operation is the next step of a thread that is inside the cell. -/
def System.Goes (s : System F) : Op F → Prop
  | .arrive i => i < s.arriving.length
  | .advance i => i < s.runners.length
  | _ => False

theorem sum_eraseIdx {α : Type} (f : α → ℕ) {l : List α} {i : ℕ} {x : α} (h : l[i]? = some x) :
    ((l.eraseIdx i).map f).sum + f x = (l.map f).sum := by
  obtain ⟨hlt, hget⟩ := List.getElem?_eq_some_iff.mp h
  have hperm := ((List.getElem_cons_eraseIdx_perm hlt).map f).sum_eq
  rw [hget, List.map_cons, List.sum_cons] at hperm
  omega

theorem sum_set {α : Type} (f : α → ℕ) {l : List α} {i : ℕ} {x : α} (h : l[i]? = some x) (y : α) :
    ((l.set i y).map f).sum + f x = (l.map f).sum + f y := by
  obtain ⟨hlt, hget⟩ := List.getElem?_eq_some_iff.mp h
  have hset : (l.set i y)[i]? = some y := List.getElem?_set_self hlt
  have hold := sum_eraseIdx f h
  have hnew := sum_eraseIdx f hset
  rw [List.eraseIdx_set_eq] at hnew
  omega

theorem rank_runCall {s : System F} {i number : ℕ} {f : F → F}
    (ha : s.arriving[i]? = some (.call number f)) : (s.runCall i number f).rank < s.rank := by
  have herase := sum_eraseIdx Arrival.rank ha
  have hset := sum_set Arrival.rank ha (.ticket number (.plain f))
  simp only [Arrival.rank] at herase hset
  rw [System.runCall]
  split_ifs
  · simp only [System.rank]
    omega
  · cases s.cell.callback with
    | none =>
      simp only [System.rank]
      omega
    | some slot =>
      simp only [System.rank, List.map_append, List.sum_append, List.map_cons, List.map_nil,
        List.sum_cons, List.sum_nil, Runner.rank]
      omega
  · simp only [System.rank]
    omega

theorem rank_runTicket {s : System F} {i number : ℕ} {call : Call F}
    (ha : s.arriving[i]? = some (.ticket number call)) :
    (s.runTicket i number call).rank < s.rank := by
  have herase := sum_eraseIdx Arrival.rank ha
  have hpark : (s.cell.park number call).parked.length ≤ s.cell.parked.length + 1 :=
    Nat.succ_le_succ (List.length_filter_le ..)
  simp only [Arrival.rank] at herase
  rw [System.runTicket]
  by_cases hdead : s.cell.dead = true
  · rw [if_pos hdead]
    simp only [System.rank]
    omega
  · rw [if_neg hdead]
    by_cases hready :
        ((s.cell.park number call).parkedAt (s.cell.park number call).next).isSome = true
    · rw [if_pos hready]
      cases (s.cell.park number call).callback with
      | none =>
        simp only [System.rank]
        omega
      | some slot =>
        simp only [System.rank, List.map_append, List.sum_append, List.map_cons, List.map_nil,
          List.sum_cons, List.sum_nil, Runner.rank]
        omega
    · rw [if_neg hready]
      simp only [System.rank]
      omega

theorem rank_runParked {s : System F} {i : ℕ} {slot : F} (hr : s.runners[i]? = some (.loop slot)) :
    (s.runParked i slot).rank < s.rank := by
  have herase := sum_eraseIdx Runner.rank hr
  simp only [Runner.rank] at herase
  rw [System.runParked]
  split_ifs
  · simp only [System.rank, List.length_nil]
    omega
  · dsimp only
    cases hparked : s.cell.parkedAt s.cell.next with
    | none =>
      simp only [System.rank]
      omega
    | some call =>
      have hset := sum_set Runner.rank hr (.serving s.cell.next call slot)
      have hunpark : (s.cell.parked.filter (·.1 ≠ s.cell.next)).length < s.cell.parked.length :=
        List.length_filter_lt_length_iff_exists.mpr ⟨_, parkedAt_some hparked, by simp⟩
      simp only [Runner.rank] at hset
      simp only [System.rank, CellState.unpark]
      omega

theorem rank_step {s : System F} {op : Op F} (h : s.Goes op) : (s.step op).rank < s.rank := by
  cases op with
  | ticket => exact h.elim
  | invoke number f => exact h.elim
  | invokeLast number f => exact h.elim
  | drop number => exact h.elim
  | kill => exact h.elim
  | arrive i =>
    obtain ⟨a, ha⟩ : ∃ a, s.arriving[i]? = some a := ⟨_, List.getElem?_eq_getElem h⟩
    rw [System.step, ha]
    cases a with
    | call number f => exact rank_runCall ha
    | ticket number call => exact rank_runTicket ha
  | advance i =>
    obtain ⟨r, hr⟩ : ∃ r, s.runners[i]? = some r := ⟨_, List.getElem?_eq_getElem h⟩
    have hset : ∀ next : F, ((s.runners.set i (.loop next)).map Runner.rank).sum + r.rank =
        (s.runners.map Runner.rank).sum + 1 := fun next => sum_set Runner.rank hr (.loop next)
    rw [System.step, hr]
    cases r with
    | mine number f slot =>
      have hnext := hset (f slot)
      simp only [System.rank, Runner.rank] at hnext ⊢
      omega
    | loop slot => exact rank_runParked hr
    | serving number call slot =>
      cases call with
      | plain f =>
        have hnext := hset (f slot)
        simp only [System.rank, Runner.rank] at hnext ⊢
        omega
      | last f =>
        have hnext := hset (f slot)
        simp only [System.rank, Runner.rank, List.length_nil] at hnext ⊢
        omega
      | empty =>
        have hnext := hset slot
        simp only [System.rank, Runner.rank] at hnext ⊢
        omega

def System.Schedule : System F → List (Op F) → Prop
  | _, [] => True
  | s, op :: ops => s.Goes op ∧ Schedule (s.step op) ops

theorem schedule_le {s : System F} {ops : List (Op F)} (h : s.Schedule ops) : ops.length ≤ s.rank := by
  induction ops generalizing s with
  | nil => exact Nat.zero_le _
  | cons op ops ih =>
    have hlt := rank_step h.1
    have hrest := ih h.2
    rw [List.length_cons]
    omega

/-- A cell's calls: those of the first `m` tickets began, in the order of the tickets and one at a
time. -/
structure Serves (callback : F) (ops : List (Op F)) (s : System F) (m : ℕ) (done : List ℕ) : Prop where
  order : Ordered s m done
  alone : s.current.length ≤ 1
  dead : s.cell.dead = true → s.cell.parked = [] ∧ s.cell.callback = none ∧ Closed s m ops ∧
    ∀ more : List (Op F), ∃ tail, (more.foldl System.step s).log = s.log ++ tail ∧
      ∀ number, Event.began number ∉ tail
  rest : s.cell.dead = false → s.arriving = [] → s.runners = [] →
    (∀ number < m, (s.used number).isSome) ∧ s.cell.callback = some (applied s.used callback m) ∧
      (m = s.cell.issued ∨ m ∈ s.held) ∧ (s.held = [] → s.cell.parked = [])
  returns : ∀ more, s.Schedule more → more.length ≤ s.rank

theorem current_le {s : System F} (h : s.runners.length ≤ 1) : s.current.length ≤ 1 := by
  cases hr : s.runners with
  | nil => simp [System.current, hr]
  | cons r rest =>
    rw [hr, List.length_cons] at h
    obtain rfl : rest = [] := List.length_eq_zero_iff.mp (by omega)
    rw [System.current, hr, List.flatMap_cons, List.flatMap_nil, List.append_nil]
    cases r with
    | mine number f slot => exact Nat.le_refl _
    | loop slot => exact Nat.zero_le _
    | serving number call slot =>
      rw [Runner.current]
      split_ifs <;> simp

/-- For any threads, in any interleaving of their windows of the cell's lock: the calls that begin are
those of the first tickets, in the order of the tickets and never two at once; a cell that nobody is in
has served every ticket below the first that is still held, its callback is what these calls made of it,
and nothing is parked when no ticket is held; a cell that is dead was killed or ended by the last call
that began, and no call begins after that; and every thread inside returns. -/
theorem cell_serves_in_ticket_order (callback : F) (ops : List (Op F)) :
    ∃ m done, Serves callback ops (System.run callback ops) m done := by
  obtain ⟨m, done, hordered, hstate⟩ := inv_run callback ops
  refine ⟨m, done, hordered, ?_, fun hdead => ?_, fun hlive harriving hrunners => ?_,
    fun more hmore => schedule_le hmore⟩
  · rcases hstate with hlive | ⟨hstopped, -⟩
    · exact current_le hlive.holder.runners_le
    · exact current_le hstopped.runners
  · rcases hstate with hlive | ⟨hstopped, hclosed⟩
    · rw [hlive.dead] at hdead
      cases hdead
    · exact ⟨hstopped.parked, hstopped.callback, hclosed, run_dead hdead⟩
  · rcases hstate with h | ⟨hstopped, -⟩
    · obtain ⟨hcallback, hheld, hparked⟩ := h.at_rest hordered.bound harriving hrunners
      exact ⟨h.used, hcallback, hheld, hparked⟩
    · rw [hstopped.dead] at hlive
      cases hlive

end WatchingZenoh.DeferredFire
