import WatchingZenoh.DeliveryLaneSamples

/-! Runs of a delivery lane with the producers' reservations outstanding. Every answer of the lane is the
one its samples ask for, and the lane's own counts are those of the samples. -/

namespace WatchingZenoh.DeliveryLane

variable {n : ℕ}

section Step

variable {s : System n} {q : List Sample} {queue : List Entry} {start : ℕ}

def Stepped (s : System n) (q : List Sample) (op : Op) : Prop :=
  ∃ s' event queue' start', s.step op = some (s', event) ∧ Holds s' (after q event) queue' start' ∧
    SameBounds s.lane s'.lane ∧ Right n q event

theorem Holds.reserve (h : Holds s q queue start) (bytes : ℕ) : Stepped s q (.reserve bytes) := by
  rcases h.kept.reserve bytes with ⟨why, -, hrun⟩ | ⟨lane', offset, charge, -, hrun, hkept, hhead, hbounds, hlt⟩
  · refine ⟨⟨s.lane.count why, s.held⟩, .reserved (.error why), queue, start, ?_,
      ⟨h.kept.count why, h.queued, h.held⟩, ⟨rfl, rfl⟩, trivial⟩
    rw [System.step, hrun]
    simp [Except.toOption]
  · have hsamples : after q (.reserved (.ok ⟨(s.lane.head + queue.length) % n, offset, bytes⟩)) =
        samples n lane'.head (queue ++ [⟨offset, bytes, charge, 0, .reserved⟩]) := by
      rw [hhead, samples_append, ← h.queued]
      rfl
    refine ⟨⟨lane', s.held ++ [⟨(s.lane.head + queue.length) % n, offset, bytes⟩]⟩,
      .reserved (.ok ⟨(s.lane.head + queue.length) % n, offset, bytes⟩), _, start, ?_,
      ⟨hkept, hsamples, ?_⟩, hbounds.toSameBounds, Nat.mod_lt _ (by omega), fun t ht => ?_⟩
    · rw [System.step, hrun]
      rfl
    · rw [after, pendingPlaces_append]
      exact h.held.append_right _
    · rw [h.queued] at ht
      obtain ⟨i, hi, hindex⟩ := index_of_mem ht
      rw [hindex]
      exact Ring.slot_ne (by omega) hlt (by omega)

theorem Holds.publish (h : Holds s q queue start) (k callbacks : ℕ) :
    Stepped s q (.publish k callbacks) := by
  cases hr : s.held[k]? with
  | none => exact ⟨s, .idle, queue, start, by rw [System.step, hr], h, ⟨rfl, rfl⟩, trivial⟩
  | some r =>
    obtain ⟨front, e, back, rfl, hphase, hplace, hmem, hperm⟩ := h.entry hr
    have hindex : r.index = (s.lane.head + front.length) % n := by rw [hplace]
    obtain ⟨lane', result, hrun, hhead, hbounds, hkept, -⟩ := h.kept.publish hphase hindex callbacks
    have hsamples : after q (.published r callbacks result) =
        samples n lane'.head (front ++ published e callbacks result :: back) := by
      rw [hhead, h.queued, after, hindex]
      refine settleAt_split h.kept.reads.room ?_
      rw [published]
      split_ifs <;> rfl
    have hsettled : (published e callbacks result).phase ≠ .reserved := by
      rw [published]
      split_ifs <;> simp
    refine ⟨⟨lane', s.held.eraseIdx k⟩, .published r callbacks result, _, start, ?_,
      ⟨hkept, hsamples, ?_⟩, hbounds.toSameBounds, hmem⟩
    · rw [System.step, hr]
      simp only [hrun]
      rfl
    · rw [hsamples, hhead, samples_append, samples, pendingPlaces_append,
        pendingPlaces_cons_of_ne (by exact hsettled)]
      exact hperm

theorem Holds.cancel (h : Holds s q queue start) (k : ℕ) : Stepped s q (.cancel k) := by
  cases hr : s.held[k]? with
  | none => exact ⟨s, .idle, queue, start, by rw [System.step, hr], h, ⟨rfl, rfl⟩, trivial⟩
  | some r =>
    obtain ⟨front, e, back, rfl, hphase, hplace, hmem, hperm⟩ := h.entry hr
    have hindex : r.index = (s.lane.head + front.length) % n := by rw [hplace]
    obtain ⟨lane', hrun, hhead, hbounds, hkept⟩ := h.kept.cancel hphase hindex
    have hsamples : after q (.cancelled r) =
        samples n lane'.head (front ++ { e with phase := .void } :: back) := by
      rw [hhead, h.queued, after, hindex]
      exact settleAt_split h.kept.reads.room rfl
    refine ⟨⟨lane', s.held.eraseIdx k⟩, .cancelled r, _, start, ?_, ⟨hkept, hsamples, ?_⟩,
      hbounds.toSameBounds, hmem⟩
    · rw [System.step, hr]
      simp only [hrun]
      rfl
    · rw [hsamples, hhead, samples_append, samples, pendingPlaces_append,
        pendingPlaces_cons_of_ne (by simp [sampleOf])]
      exact hperm

theorem Holds.front (h : Holds s q queue start) : Stepped s q .front := by
  obtain ⟨lane', next, queue', start', hrun, hkept, hbounds, hsamples, hnext⟩ :=
    h.kept.frontLoop (Nat.lt_succ_self _)
  refine ⟨⟨lane', s.held⟩, .offered next, queue', start', ?_, ⟨hkept, ?_, ?_⟩,
        hbounds.toSameBounds, ?_⟩
  · rw [System.step, DeliveryLane.front, h.kept.len, hrun]
    rfl
  · rw [after, hsamples, h.queued]
  · rw [after, pendingPlaces_dropWhile]
    exact h.held
  · rw [Right, hnext, h.queued]

theorem Holds.complete (h : Holds s q queue start) : Stepped s q .complete := by
  have hlen := h.kept.len
  have hsamples := h.queued
  cases queue with
  | nil =>
    rw [List.length_nil] at hlen
    refine ⟨s, .completed false, [], start, ?_, h, ⟨rfl, rfl⟩, ?_⟩
    · rw [System.step, DeliveryLane.complete, if_pos hlen]
      rfl
    · rw [Right, hsamples]
      rfl
  | cons e queue =>
    rw [List.length_cons] at hlen
    rw [samples] at hsamples
    have hslot := h.kept.reads.first
    by_cases hphase : e.phase = .ready
    · obtain ⟨lane', start', hpop, hhead, hkept, hbounds⟩ := h.kept.pop (by simp [hphase])
      refine ⟨⟨lane', s.held⟩, .completed true, queue, start', ?_, ⟨hkept, ?_, ?_⟩,
        hbounds.toSameBounds, ?_⟩
      · rw [System.step, DeliveryLane.complete, if_neg (by omega), hslot]
        simp [hphase, hpop]
      · rw [after, hsamples, List.tail_cons, hhead, samples_mod]
      · have hheld := h.held
        rw [hsamples, pendingPlaces_cons_of_ne (by simp [sampleOf, hphase])] at hheld
        rw [after, hsamples]
        exact hheld
      · simp [Right, hsamples, sampleOf, hphase]
    · refine ⟨s, .completed false, e :: queue, start, ?_, h, ⟨rfl, rfl⟩, ?_⟩
      · rw [System.step, DeliveryLane.complete, if_neg (by omega), hslot]
        simp [hphase]
      · simp [Right, hsamples, sampleOf, hphase]

theorem Holds.evictLatest (h : Holds s q queue start) : Stepped s q .evictLatest := by
  have hlen := h.kept.len
  have hsamples := h.queued
  have hqlen : q.length = queue.length := by rw [hsamples, length_samples]
  by_cases hfew : queue.length < 2
  · refine ⟨s, .evicted none, queue, start, ?_, h, ⟨rfl, rfl⟩, ?_⟩
    · rw [System.step, DeliveryLane.evictLatest, if_pos (by omega)]
      rfl
    · rw [Right, newestOf, if_pos (by omega)]
  · rcases List.eq_nil_or_concat queue with rfl | ⟨init, e, rfl⟩
    · simp at hfew
    rw [List.concat_eq_append] at h hlen hsamples hqlen hfew
    rw [List.length_append, List.length_singleton] at hlen hfew hqlen
    rw [samples_append, samples, samples] at hsamples
    have hnewest : newestOf q = if e.phase = .reserved then none
        else some ((s.lane.head + init.length) % n) := by
      rw [newestOf, if_neg (by omega), hsamples, List.getLast?_concat]
      rfl
    by_cases hphase : e.phase = .reserved
    · refine ⟨s, .evicted none, init ++ [e], start, ?_, h, ⟨rfl, rfl⟩, ?_⟩
      · have hindex : advance s.lane.head (s.lane.len - 1) n =
            some ((s.lane.head + init.length) % n) := by
          have hroom := h.kept.reads.room
          rw [List.length_append, List.length_singleton] at hroom
          rw [advance_eq h.kept.reads.inside (by omega)]
          congr 3
          omega
        have hslot : s.lane.entries[(s.lane.head + init.length) % n]? = some e :=
          h.kept.reads.get (by simp)
        rw [System.step, DeliveryLane.evictLatest, if_neg (by omega)]
        simp [hindex, hslot, hphase]
      · rw [Right, hnewest, if_pos hphase]
    · have hinit : init ≠ [] := by
        rintro rfl
        simp at hfew
      obtain ⟨lane', hrun, hhead, hbounds, hkept⟩ := h.kept.evict hinit hphase
      refine ⟨⟨lane', s.held⟩, .evicted (some ((s.lane.head + init.length) % n)), init, start, ?_,
        ⟨hkept, ?_, ?_⟩,
        hbounds.toSameBounds, ?_⟩
      · rw [System.step, hrun]
        rfl
      · rw [after, hsamples, List.dropLast_concat, hhead]
      · have hheld := h.held
        rw [hsamples, pendingPlaces_append, pendingPlaces_cons_of_ne (by exact hphase)] at hheld
        rw [after, hsamples, List.dropLast_concat]
        simpa [pendingPlaces] using hheld
      · rw [Right, hnewest, if_neg hphase]

theorem Holds.step (h : Holds s q queue start) (op : Op) : Stepped s q op := by
  cases op with
  | reserve bytes => exact h.reserve bytes
  | publish k callbacks => exact h.publish k callbacks
  | cancel k => exact h.cancel k
  | front => exact h.front
  | complete => exact h.complete
  | evictLatest => exact h.evictLatest
  | stop => exact ⟨_, _, queue, start, rfl, ⟨h.kept.stop, h.queued, h.held⟩, ⟨rfl, rfl⟩, trivial⟩

end Step

theorem sum_callbacks_samples (head : ℕ) (queue : List Entry) :
    ((samples n head queue).map Sample.callbacks).sum = owed queue := by
  induction queue generalizing head with
  | nil => rfl
  | cons e queue ih =>
    rw [samples, List.map_cons, List.sum_cons, ih, owed_cons]
    rfl

/-- The bounds of a lane hold of its samples: their bytes are inside the area and apart, the charges
add up to the bytes used, and the callbacks owed pass the budget only by one sample that owes them
all. -/
structure Accounts (cap budget : ℕ) (lane : DeliveryLane n) (q : List Sample) : Prop where
  inside : ∀ t ∈ q, t.place.offset + t.place.bytes ≤ cap
  apart : q.Pairwise fun a b => Apart a.place b.place
  bytes : ∃ queue, Ring.Reads lane.entries lane.head queue ∧ q = samples n lane.head queue ∧
    lane.byteUsed = total queue ∧ lane.byteUsed ≤ cap
  callbacks : lane.pendingCallbacks = (q.map Sample.callbacks).sum
  budget : lane.pendingCallbacks ≤ budget ∨ ∃ front t back, q = front ++ t :: back ∧
    t.callbacks = lane.pendingCallbacks ∧ ∀ u ∈ front ++ back, u.callbacks = 0

theorem Holds.accounts {s : System n} {q : List Sample} {queue : List Entry} {start : ℕ}
    (h : Holds s q queue start) : Accounts s.lane.byteCapacity s.lane.callbackBudget s.lane q := by
  have hsum : (q.map Sample.callbacks).sum = owed queue := by rw [h.queued, sum_callbacks_samples]
  refine ⟨fun t ht => ?_, ?_, ⟨queue, h.kept.reads, h.queued, h.kept.byteUsed, ?_⟩, ?_, ?_⟩
  · rw [h.queued] at ht
    obtain ⟨A, B, hsplit⟩ := List.append_of_mem ht
    obtain ⟨front, e, back, rfl, -, rfl, -⟩ := samples_split hsplit
    obtain ⟨v, -, -, hplaced⟩ := placed_of_mem h.kept.laid (f := e) (by simp)
    exact hplaced.inside
  · rw [h.queued]
    exact pairwise_apart h.kept.laid h.kept.used_le
  · rw [h.kept.byteUsed]
    exact h.kept.used_le
  · rw [h.kept.pending, hsum]
  · rw [h.kept.pending]
    rcases h.kept.budget with hbudget | ⟨e, he, hall⟩
    · exact .inl hbudget
    · obtain ⟨front, back, rfl⟩ := List.append_of_mem he
      right
      refine ⟨samples n s.lane.head front, sampleOf ((s.lane.head + front.length) % n) e,
        samples n (s.lane.head + front.length + 1) back, ?_, hall, fun u hu => ?_⟩
      · rw [h.queued, samples_append, samples]
      · have hrest : ((samples n s.lane.head front ++
            samples n (s.lane.head + front.length + 1) back).map Sample.callbacks).sum = 0 := by
          rw [List.map_append, List.sum_append, sum_callbacks_samples, sum_callbacks_samples]
          rw [owed_append, owed_cons] at hall
          omega
        exact List.sum_eq_zero_iff.mp hrest _ (List.mem_map_of_mem hu)

theorem run_concat (cap budget : ℕ) (ops : List Op) (op : Op) :
    run n cap budget (ops ++ [op]) = (run n cap budget ops).bind fun s =>
      (s.1.step op).map fun r => (r.1, s.2 ++ [r.2]) := by
  rw [run, List.foldlM_append]
  simp only [List.foldlM_cons, List.foldlM_nil]
  cases hrun : run n cap budget ops with
  | none =>
    rw [run] at hrun
    rw [hrun]
    rfl
  | some s =>
    rw [run] at hrun
    rw [hrun]
    simp

/-- No operation of any run panics; every answer is the one the samples ask for, in the order they were
reserved in and with the place each was given; and the bounds hold throughout. -/
theorem lane_follows_samples {cap : ℕ} (hn : 0 < n) (hcap : 0 < cap) (budget : ℕ) (ops : List Op) :
    ∃ s events, run n cap budget ops = some (s, events) ∧
      (∀ past event rest, events = past ++ event :: rest → Right n (past.foldl after []) event) ∧
      Accounts cap budget s.lane (events.foldl after []) := by
  suffices hall : ∃ s events queue start, run n cap budget ops = some (s, events) ∧
      (∀ past event rest, events = past ++ event :: rest → Right n (past.foldl after []) event) ∧
      Holds s (events.foldl after []) queue start ∧ s.lane.byteCapacity = cap ∧
      s.lane.callbackBudget = budget by
    obtain ⟨s, events, queue, start, hrun, hright, hholds, hbytes, hcallbacks⟩ := hall
    have haccounts := hholds.accounts
    rw [hbytes, hcallbacks] at haccounts
    exact ⟨s, events, hrun, hright, haccounts⟩
  induction ops using List.reverseRecOn with
  | nil =>
    refine ⟨⟨new n cap budget, []⟩, [], [], 0, rfl, by simp, ⟨kept_new hn hcap, rfl, ?_⟩, rfl, rfl⟩
    exact List.Perm.refl _
  | append_singleton ops op ih =>
    obtain ⟨s, events, queue, start, hrun, hright, hholds, hbytes, hcallbacks⟩ := ih
    obtain ⟨s', event, queue', start', hstep, hholds', hbounds, hanswer⟩ := hholds.step op
    refine ⟨s', events ++ [event], queue', start', ?_, fun past e rest hsplit => ?_, ?_, ?_, ?_⟩
    · rw [run_concat, hrun, Option.bind_some, hstep, Option.map_some]
    · rcases List.eq_nil_or_concat rest with rfl | ⟨rest, last, rfl⟩
      · obtain ⟨rfl, hlast⟩ := List.append_inj' hsplit rfl
        cases hlast
        exact hanswer
      · rw [List.concat_eq_append, ← List.cons_append, ← List.append_assoc] at hsplit
        exact hright past e rest (List.append_inj' hsplit rfl).1
    · rw [List.foldl_append]
      exact hholds'
    · rw [hbounds.byteCapacity, hbytes]
    · rw [hbounds.callbackBudget, hcallbacks]

/-- The last sample skips the end of the area and goes to its start. -/
theorem lane_follows_samples_wrapped :
    ∃ s events, run 2 10 4 [.reserve 6, .publish 0 1, .reserve 2, .front, .complete, .reserve 5] =
        some (s, events) ∧
      (∀ past event rest, events = past ++ event :: rest → Right 2 (past.foldl after []) event) ∧
      Accounts 10 4 s.lane (events.foldl after []) :=
  lane_follows_samples (by decide) (by decide) 4 _

end WatchingZenoh.DeliveryLane
