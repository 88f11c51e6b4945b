import WatchingZenoh.OffloadSteps

/-! Runs of an offloaded subscription: samples offered by the receive path, the drain of those that
wait outside the lane, and the task that runs the callbacks, in any order of their steps. Every sample
offered is handed over, waits, or was counted as lost, and what is handed over keeps the order. -/

namespace WatchingZenoh.Offload

open Backend DeliveryLane Slices

variable {ι : Type} {n : ℕ}

def waiting (running : Bool) (views : List (SampleView ι)) : List (SampleView ι) :=
  views.drop running.toNat

theorem waiting_append {running : Bool} {views : List (SampleView ι)}
    (hhead : running = true → views ≠ []) (more : List (SampleView ι)) :
    waiting running (views ++ more) = waiting running views ++ more := by
  refine List.drop_append_of_le_length ?_
  cases running with
  | false => exact Nat.zero_le _
  | true => exact List.length_pos_of_ne_nil (hhead rfl)

/-- Where the samples that were offered are: handed over, waiting in the lane, waiting outside it, or
lost. -/
structure Accounted (cap : ℕ) (overload : SubscriberOverload) (s : System ι n)
    (inside outside : List (SampleView ι)) : Prop where
  held : s.state.held = outside.map SampleView.held
  order : (s.handed ++ (inside ++ outside)).Sublist s.offered
  counts : ∀ r, (s.handed ++ (inside ++ outside)).countP (·.reliability = r) + s.state.dropped r =
    s.offered.countP (·.reliability = r)
  none_outside : overload ≠ .block → outside = []
  complete : overload = .block → s.state.lane.stopping = false →
    s.handed ++ (inside ++ outside) = s.offered.filter (·.total ≤ cap)

/-- The lane, the books and the drain agree. -/
structure Inv (cap : ℕ) (overload : SubscriberOverload) (s : System ι n) (queue : List Entry)
    (start : ℕ) (views outside : List (SampleView ι)) : Prop where
  carries : Carries s.state s.running queue start views
  capacity : s.state.lane.byteCapacity = cap
  accounted : Accounted cap overload s (waiting s.running views) outside
  flushing : s.flushing = true → s.state.lane.stopping = true

section Step

variable {cap : ℕ} {overload : SubscriberOverload} {s : System ι n} {queue : List Entry} {start : ℕ}
  {views outside : List (SampleView ι)}

def Stepped (cap : ℕ) (overload : SubscriberOverload) (s : System ι n) (op : Op ι) : Prop :=
  ∃ s' queue' start' views' outside', s.step overload op = some s' ∧
    Inv cap overload s' queue' start' views' outside'

theorem Inv.admitSample (h : Inv cap overload s queue start views outside) (v : SampleView ι) :
    Stepped cap overload s (.admitSample v) := by
  obtain ⟨hheld, horder, hcounts, hnone, hcomplete⟩ := h.accounted
  obtain ⟨state', queue', kept, lost, taken, refused, more, outside', hrun, rfl, hhead, hcarries,
    hadmission⟩ := h.carries.admitSample hheld hnone v
  rw [waiting_append hhead] at horder hcounts hcomplete
  have hmoved : waiting s.running (kept ++ more) ++ outside' =
      waiting s.running kept ++ (outside ++ taken) := by
    rw [waiting_append hhead, List.append_assoc, hadmission.moved]
  refine ⟨_, queue', start, kept ++ more, outside', by rw [System.step, hrun]; rfl, hcarries, ?_,
    ⟨hadmission.held, ?_, fun r => ?_, hadmission.none_outside, fun hblock hstop => ?_⟩, fun hflush => ?_⟩
  · exact hadmission.terms.byteCapacity.trans h.capacity
  · simp only [hmoved]
    have htaken : taken.Sublist [v] := by
      rw [hadmission.offered]
      exact List.sublist_append_left ..
    have hkept : (s.handed ++ (waiting s.running kept ++ outside)).Sublist s.offered := by
      refine List.Sublist.trans ?_ horder
      exact ((List.sublist_append_left ..).append_right _).append_left _
    have hsplit : s.handed ++ (waiting s.running kept ++ (outside ++ taken)) =
        s.handed ++ (waiting s.running kept ++ outside) ++ taken := by
      simp only [List.append_assoc]
    rw [hsplit]
    exact hkept.append htaken
  · have hold := hcounts r
    have hnew := hadmission.dropped r
    have hv : [v].countP (·.reliability = r) = _ := congrArg (List.countP (·.reliability = r)) hadmission.offered
    simp only [hmoved]
    simp only [List.countP_append] at hold hnew hv ⊢
    omega
  · have hstop' : s.state.lane.stopping = false := hadmission.terms.stopping.symm.trans hstop
    obtain ⟨rfl, htaken⟩ := hadmission.complete hblock hstop'
    have hall := hcomplete hblock hstop'
    simp only [hmoved]
    rw [List.filter_append, ← hall, htaken, h.capacity]
    simp
  · exact hadmission.terms.stopping.trans (h.flushing hflush)

theorem Inv.drainHeld (h : Inv cap overload s queue start views outside) :
    Stepped cap overload s .drainHeld := by
  obtain ⟨hheld, horder, hcounts, hnone, hcomplete⟩ := h.accounted
  obtain ⟨state', queue', moved, rest, rfl, hrun, hcarries, hrest, hdropped, hterms⟩ :=
    h.carries.drainLoop outside
  have hmoved : waiting s.running (views ++ moved) ++ rest =
      waiting s.running views ++ (moved ++ rest) := by
    rw [waiting_append h.carries.head, List.append_assoc]
  refine ⟨_, queue', start, views ++ moved, rest, by rw [System.step, hheld, hrun]; rfl, hcarries,
    hterms.byteCapacity.trans h.capacity, ⟨hrest, ?_, fun r => ?_, fun hother => ?_,
    fun hblock hstop => ?_⟩, fun hflush => ?_⟩
  · simp only [hmoved]
    exact horder
  · simp only [hmoved, hdropped]
    exact hcounts r
  · exact (List.append_eq_nil_iff.mp (hnone hother)).2
  · simp only [hmoved]
    exact hcomplete hblock (hterms.stopping.symm.trans hstop)
  · rw [Bool.and_eq_true] at hflush
    exact hflush.2

theorem dropped_flush (s : State ι n) (outside : List (SampleView ι)) :
    ∃ s' : State ι n, (outside.map SampleView.held).foldl
        (fun state held => state.lose held.record.reliability) s = s' ∧ s'.lane = s.lane ∧
      s'.area = s.area ∧ s'.records = s.records ∧
      ∀ r, s'.dropped r = s.dropped r + outside.countP (·.reliability = r) := by
  induction outside generalizing s with
  | nil => exact ⟨s, rfl, rfl, rfl, rfl, fun r => rfl⟩
  | cons v outside ih =>
    obtain ⟨s', hrun, hlane, harea, hrecords, hdropped⟩ := ih (s.lose v.reliability)
    refine ⟨s', hrun, by rw [hlane, State.lose_lane], by rw [harea, State.lose_area],
      by rw [hrecords, State.lose_records], fun r => ?_⟩
    rw [hdropped, State.dropped_lose, List.countP_cons]
    simp only [decide_eq_true_eq]
    omega

theorem Inv.flushHeld (h : Inv cap overload s queue start views outside) :
    Stepped cap overload s .flushHeld := by
  obtain ⟨hheld, horder, hcounts, hnone, hcomplete⟩ := h.accounted
  by_cases hflush : s.flushing = true
  · obtain ⟨state', hrun, hlane, harea, hrecords, hdropped⟩ := dropped_flush s.state outside
    have hstop := h.flushing hflush
    refine ⟨{ s with state := { state' with held := [] }, flushing := false }, queue, start, views, [],
      ?_, h.carries.congr hlane harea hrecords, ?_, ⟨rfl, ?_, fun r => ?_, fun _ => rfl,
      fun hblock hgo => ?_⟩, nofun⟩
    · rw [System.step, if_pos hflush, hheld, hrun]
    · simp only
      rw [hlane, h.capacity]
    · refine List.Sublist.trans ?_ horder
      exact (List.Sublist.append_left (List.nil_sublist _) _).append_left _
    · have hold := hcounts r
      have hsame : State.dropped { state' with held := [] } r = state'.dropped r := by
        cases r <;> rfl
      simp only [hsame, hdropped]
      simp only [List.countP_append, List.countP_nil] at hold ⊢
      omega
    · simp only at hgo
      rw [hlane, hstop] at hgo
      cases hgo
  · exact ⟨s, queue, start, views, outside, by rw [System.step, if_neg hflush], h⟩

theorem Inv.takeHead (h : Inv cap overload s queue start views outside) :
    Stepped cap overload s .takeHead := by
  by_cases hrunning : s.running = true
  · exact ⟨s, queue, start, views, outside, by rw [System.step, if_pos hrunning], h⟩
  rw [Bool.not_eq_true] at hrunning
  have hcarries := h.carries
  rw [hrunning] at hcarries
  cases views with
  | nil =>
    refine ⟨s, queue, start, [], outside, ?_, h⟩
    rw [System.step, if_neg (by simp [hrunning]), hcarries.front_nil]
    rfl
  | cons v views =>
    obtain ⟨hheld, horder, hcounts, hnone, hcomplete⟩ := h.accounted
    obtain ⟨head, hfront, hslice, hrecord, hcarries'⟩ := hcarries.front
    have hmoved : s.handed ++ (waiting s.running (v :: views) ++ outside) =
        (s.handed ++ [v]) ++ (waiting true (v :: views) ++ outside) := by
      rw [hrunning]
      simp [waiting]
    rw [hmoved] at horder hcomplete
    simp only [hmoved] at hcounts
    refine ⟨{ s with
      state := { s.state with records := s.state.records.setIfInBounds head.index none }
      running := true
      handed := s.handed ++ [v] }, queue, start, v :: views, outside, ?_, hcarries', h.capacity,
      ⟨hheld, horder, fun r => ?_, hnone, hcomplete⟩, h.flushing⟩
    · rw [System.step, hrunning, hfront]
      simp [hslice, hrecord, laneSample_joined]
    · have hsame : State.dropped { s.state with
          records := s.state.records.setIfInBounds head.index none } r = s.state.dropped r := by
        cases r <;> rfl
      simp only [hsame]
      exact hcounts r

theorem Inv.complete (h : Inv cap overload s queue start views outside) :
    Stepped cap overload s .complete := by
  by_cases hrunning : s.running = true
  · obtain ⟨hheld, horder, hcounts, hnone, hcomplete⟩ := h.accounted
    have hcarries := h.carries
    rw [hrunning] at hcarries
    cases views with
    | nil => exact absurd rfl (hcarries.head rfl)
    | cons v views =>
      obtain ⟨lane', queue', start', hrun, hterms, hcarries'⟩ := hcarries.complete
      have hmoved : waiting s.running (v :: views) = waiting false views := by
        rw [hrunning]
        rfl
      rw [hmoved] at horder hcomplete
      simp only [hmoved] at hcounts
      refine ⟨{ s with state := { s.state with lane := lane' }, running := false }, queue', start',
        views, outside, ?_, hcarries', hterms.byteCapacity.trans h.capacity,
        ⟨hheld, horder, fun r => ?_, hnone, fun hblock hstop => ?_⟩, fun hflush => ?_⟩
      · rw [System.step, if_pos hrunning, hrun]
        rfl
      · have hsame : State.dropped { s.state with lane := lane' } r = s.state.dropped r := by
          cases r <;> rfl
        simp only [hsame]
        exact hcounts r
      · exact hcomplete hblock (hterms.stopping.symm.trans hstop)
      · exact hterms.stopping.trans (h.flushing hflush)
  · exact ⟨s, queue, start, views, outside, by rw [System.step, if_neg hrunning], h⟩

theorem Inv.stop (h : Inv cap overload s queue start views outside) :
    Stepped cap overload s .stop := by
  obtain ⟨hheld, horder, hcounts, hnone, hcomplete⟩ := h.accounted
  refine ⟨_, queue, start, views, outside, rfl, h.carries.stop, h.capacity,
    ⟨hheld, horder, fun r => ?_, hnone, fun _ hstop => ?_⟩, fun _ => rfl⟩
  · have hsame : State.dropped { s.state with lane := s.state.lane.stop } r = s.state.dropped r := by
      cases r <;> rfl
    simp only [hsame]
    exact hcounts r
  · cases hstop

theorem Inv.step (h : Inv cap overload s queue start views outside) (op : Op ι) :
    Stepped cap overload s op := by
  cases op with
  | admitSample v => exact h.admitSample v
  | drainHeld => exact h.drainHeld
  | flushHeld => exact h.flushHeld
  | takeHead => exact h.takeHead
  | complete => exact h.complete
  | stop => exact h.stop

end Step

theorem run_concat (cap callbacks : ℕ) (overload : SubscriberOverload) (ops : List (Op ι))
    (op : Op ι) : System.run n cap callbacks overload (ops ++ [op]) =
      (System.run n cap callbacks overload ops).bind fun s => s.step overload op := by
  rw [System.run, List.foldlM_append]
  cases hrun : System.run n cap callbacks overload ops with
  | none =>
    rw [System.run] at hrun
    rw [hrun]
    rfl
  | some s =>
    rw [System.run] at hrun
    rw [hrun]
    simp

theorem carries_new {cap callbacks : ℕ} (hn : 0 < n) (hcap : 0 < cap) (hbudget : n ≤ callbacks) :
    Carries (System.new ι n cap callbacks).state false [] 0 [] :=
  ⟨kept_new hn hcap, List.length_replicate, rfl, by simp, Ring.reads_empty hn, nofun, hbudget⟩

/-- In every run of the receive path, the drain and the consumer, no step panics; every sample offered
was handed over, waits in the lane that carries it or outside it, or was counted as lost by how it was
sent; what was handed over and what waits keep the order of the offers; a policy that does not hold has
nothing outside; and one that holds loses nothing that the lane could ever take until it is stopped. -/
theorem offloaded_samples_accounted {cap callbacks : ℕ} (hn : 0 < n) (hcap : 0 < cap)
    (hbudget : n ≤ callbacks) (overload : SubscriberOverload) (ops : List (Op ι)) :
    ∃ s queue start views outside, System.run n cap callbacks overload ops = some s ∧
      Carries s.state s.running queue start views ∧
      (waiting s.running views).length + s.running.toNat = s.state.lane.len ∧
      Accounted cap overload s (waiting s.running views) outside := by
  suffices hall : ∃ s queue start views outside, System.run n cap callbacks overload ops = some s ∧
      Inv cap overload s queue start views outside by
    obtain ⟨s, queue, start, views, outside, hrun, hinv⟩ := hall
    refine ⟨s, queue, start, views, outside, hrun, hinv.carries, ?_, hinv.accounted⟩
    have hhead : s.running.toNat ≤ views.length := by
      cases hrunning : s.running with
      | false => exact Nat.zero_le _
      | true => exact List.length_pos_of_ne_nil (hinv.carries.head hrunning)
    rw [waiting, List.length_drop, hinv.carries.len]
    omega
  induction ops using List.reverseRecOn with
  | nil =>
    refine ⟨System.new ι n cap callbacks, [], 0, [], [], rfl, carries_new hn hcap hbudget, rfl,
      ⟨rfl, List.Sublist.refl _, fun r => ?_, fun _ => rfl, fun _ _ => rfl⟩, nofun⟩
    cases r <;> rfl
  | append_singleton ops op ih =>
    obtain ⟨s, queue, start, views, outside, hrun, hinv⟩ := ih
    obtain ⟨s', queue', start', views', outside', hstep, hinv'⟩ := hinv.step op
    refine ⟨s', queue', start', views', outside', ?_, hinv'⟩
    rw [run_concat, hrun, Option.bind_some, hstep]

/-- Two samples for a lane of one, drained after the first was handed over. -/
theorem offloaded_samples_accounted_held :
    ∃ s queue start views outside, System.run 1 4 1 .block
        [.admitSample ⟨[1], [2], none, none, .reliable, ()⟩,
          .admitSample ⟨[1], [3], none, none, .reliable, ()⟩,
          .takeHead, .complete, .drainHeld] = some s ∧
      Carries s.state s.running queue start views ∧
      (waiting s.running views).length + s.running.toNat = s.state.lane.len ∧
      Accounted 4 .block s (waiting s.running views) outside :=
  offloaded_samples_accounted (by decide) (by decide) (by decide) _ _

end WatchingZenoh.Offload
