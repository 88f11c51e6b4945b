import WatchingZenoh.OffloadCarries

/-! The steps of an offloaded subscription's lane: a sample offered under each policy, the drain of
those that wait outside the lane, and the consumer's two steps. Each says what is carried after it and
what was lost. -/

namespace WatchingZenoh.Offload

open Backend DeliveryLane Slices

variable {ι : Type} {n : ℕ}

section Steps

variable {s : State ι n} {running : Bool} {queue : List Entry} {start : ℕ}
  {views : List (SampleView ι)}

theorem writeHeld_held (s : State ι n) (v : SampleView ι) :
    s.writeHeld v.held = s.write v.slices v.total v.record := by
  have hcut : cut v.held.bytes v.held.record = _ := cut_joined v
  rw [State.writeHeld, hcut]
  simp only [Option.bind_eq_bind, Option.bind_some]
  have hlength : v.held.bytes.length = v.total := v.length_joined
  rw [hlength]
  rfl

theorem Carries.drainLoop (h : Carries s running queue start views) (outside : List (SampleView ι)) :
    ∃ s' queue' moved rest, outside = moved ++ rest ∧
      s.drainLoop (outside.map SampleView.held) = some s' ∧
      Carries s' running queue' start (views ++ moved) ∧ s'.held = rest.map SampleView.held ∧
      (∀ r, s'.dropped r = s.dropped r) ∧ SameTerms s.lane s'.lane := by
  induction outside generalizing s queue views with
  | nil =>
    refine ⟨{ s with held := [] }, queue, [], [], rfl, rfl, ?_, rfl, fun r => ?_, sameTerms_refl _⟩
    · rw [List.append_nil]
      exact h.congr rfl rfl rfl
    · cases r <;> rfl
  | cons v outside ih =>
    have hlength : v.held.bytes.length = v.total := v.length_joined
    rw [List.map_cons, State.drainLoop, hlength, writeHeld_held]
    rcases h.write v with ⟨why, hfits, -⟩ | ⟨s', queue', hfits, hwrite, hcarries, hterms, hbooks⟩
    · rw [hfits]
      refine ⟨{ s with held := v.held :: outside.map SampleView.held }, queue, [], v :: outside, rfl,
        rfl, ?_, rfl, fun r => ?_, sameTerms_refl _⟩
      · rw [List.append_nil]
        exact h.congr rfl rfl rfl
      · cases r <;> rfl
    · rw [hfits]
      simp only [Option.bind_eq_bind, Option.bind_some, hwrite]
      obtain ⟨s'', queue'', moved, rest, rfl, hloop, hcarries', hheld, hdropped, hterms'⟩ :=
        ih hcarries
      refine ⟨s'', queue'', v :: moved, rest, rfl, hloop, ?_, hheld, fun r => ?_,
        hterms.trans hterms'⟩
      · rw [List.append_assoc] at hcarries'
        exact hcarries'
      · rw [hdropped, hbooks.dropped]

theorem recordsOf_false (views : List (SampleView ι)) :
    recordsOf false views = views.map fun v => some v.record := by
  cases views with
  | nil => rfl
  | cons v views => rfl

theorem Carries.front {v : SampleView ι} (h : Carries s false queue start (v :: views)) :
    ∃ head : Delivery, s.lane.front = some (s.lane, .ready head) ∧
      slice? s.area head.offset head.bytes = some v.joined ∧
      s.records[head.index]? = some (some v.record) ∧
      Carries { s with records := s.records.setIfInBounds head.index none } true queue start
        (v :: views) := by
  have hlength := h.length
  have hlen := h.kept.len
  cases queue with
  | nil => cases hlength
  | cons e queue =>
    have hfirst : Carried s.area e v := h.carried 0 e v rfl rfl
    obtain ⟨u, -, -, hplaced⟩ := placed_of_mem h.kept.laid (f := e) (by simp)
    have hrecords := h.records
    rw [recordsOf_false] at hrecords
    refine ⟨⟨s.lane.head, e.offset, e.bytes, e.callbacks⟩, ?_, ?_, hrecords.first, h.kept, h.area,
      h.length, h.carried, ?_, by simp, h.budget⟩
    · rw [List.length_cons] at hlen
      rw [DeliveryLane.front, DeliveryLane.frontLoop, if_neg (by omega), h.kept.reads.first]
      simp [hfirst.phase]
    · rw [slice?, if_pos (by rw [h.area]; exact hplaced.inside), hfirst.slice]
    · have hset := hrecords.set (i := 0) (by simp) none
      rw [Nat.add_zero, Nat.mod_eq_of_lt hrecords.inside] at hset
      exact hset

theorem Carries.front_nil (h : Carries s running queue start []) :
    s.lane.front = some (s.lane, .empty) := by
  have hlen := h.len
  rw [List.length_nil] at hlen
  rw [DeliveryLane.front, DeliveryLane.frontLoop, if_pos hlen]

theorem Carries.complete {v : SampleView ι} (h : Carries s true queue start (v :: views)) :
    ∃ lane' queue' start', s.lane.complete = some (lane', true) ∧ SameTerms s.lane lane' ∧
      Carries { s with lane := lane' } false queue' start' views := by
  have hlength := h.length
  have hlen := h.kept.len
  cases queue with
  | nil => cases hlength
  | cons e queue =>
    have hfirst : Carried s.area e v := h.carried 0 e v rfl rfl
    obtain ⟨lane', start', hpop, hhead, hkept, hterms⟩ := h.kept.pop (by simp [hfirst.phase])
    refine ⟨lane', queue, start', ?_, hterms, hkept, ?_, by simpa using hlength,
      fun i f w hf hw => h.carried (i + 1) f w hf hw, ?_, by simp, ?_⟩
    · rw [List.length_cons] at hlen
      rw [DeliveryLane.complete, if_neg (by omega), h.kept.reads.first]
      simp [hfirst.phase, hpop]
    · exact h.area.trans hterms.byteCapacity.symm
    · have hrest := h.records.rest
      rw [← recordsOf_false, ← hhead] at hrest
      exact hrest
    · simp only
      rw [hterms.callbackBudget]
      exact h.budget

theorem Carries.stop (h : Carries s running queue start views) :
    Carries { s with lane := s.lane.stop } running queue start views :=
  ⟨h.kept.stop, h.area, h.length, h.carried, h.records, h.head, h.budget⟩

end Steps

/-- How a sample that is offered changes what is carried: some of the newest are lost for it, and it is
taken, into the lane or behind what waits outside, or refused. -/
structure Admission (overload : SubscriberOverload) (s s' : State ι n) (v : SampleView ι)
    (outside lost taken refused more outside' : List (SampleView ι)) : Prop where
  terms : SameTerms s.lane s'.lane
  held : s'.held = outside'.map SampleView.held
  offered : [v] = taken ++ refused
  moved : more ++ outside' = outside ++ taken
  dropped : ∀ r, s'.dropped r = s.dropped r + (lost ++ refused).countP (·.reliability = r)
  none_outside : overload ≠ .block → outside' = []
  complete : overload = .block → s.lane.stopping = false →
    lost = [] ∧ taken = [v].filter (·.total ≤ s.lane.byteCapacity)

section Admit

variable {s : State ι n} {running : Bool} {queue : List Entry} {start : ℕ}
  {views outside : List (SampleView ι)} {overload : SubscriberOverload}

theorem noRoom_of_fits {lane : DeliveryLane n} {bytes : ℕ} {why : Refusal}
    (h : lane.fits bytes = some (.error why)) (hstop : lane.stopping = false) :
    State.noRoom (.error why) = true := by
  rw [DeliveryLane.fits, hstop] at h
  simp only [Bool.false_eq_true, if_false] at h
  split_ifs at h with hfull
  · cases h
    rfl
  · cases hplace : lane.place bytes with
    | none =>
      rw [hplace] at h
      cases h
    | some placed =>
      rw [hplace] at h
      simp only [Option.bind_eq_bind, Option.bind_some, Option.some.injEq] at h
      split_ifs at h
      cases h
      rfl

theorem Carries.waits (h : Carries s running queue start views) (bytes : ℕ)
    (overload : SubscriberOverload) :
    ∃ wait, s.waits bytes overload = some wait ∧
      (wait = true → overload = .block ∧ bytes ≤ s.lane.byteCapacity) ∧
      (wait = false → overload = .block → bytes ≤ s.lane.byteCapacity → s.held = [] ∧
        ∀ answer, s.lane.fits bytes = some answer → State.noRoom answer = false) := by
  obtain ⟨answer, hfits⟩ := h.fits bytes
  by_cases hblock : overload = .block ∧ s.lane.canEverFit bytes = true
  · refine ⟨State.noRoom answer || !s.held.isEmpty, ?_, fun _ => ⟨hblock.1, ?_⟩,
      fun hwait _ _ => ?_⟩
    · rw [State.waits, if_pos hblock, hfits]
      rfl
    · simpa [canEverFit] using hblock.2
    · rw [Bool.or_eq_false_iff] at hwait
      refine ⟨by simpa using hwait.2, fun other hother => ?_⟩
      rw [hfits] at hother
      cases hother
      exact hwait.1
  · refine ⟨false, if_neg hblock, nofun, fun _ hoverload hle => ?_⟩
    exact absurd ⟨hoverload, by simpa [canEverFit] using hle⟩ hblock

theorem Carries.makeRoom (h : Carries s running queue start views) (bytes : ℕ) :
    ∃ s' queue' kept lost, s.makeRoom bytes = some s' ∧ views = kept ++ lost ∧
      Carries s' running queue' start kept ∧ s'.held = s.held ∧
      (∀ r, s'.dropped r = s.dropped r + lost.countP (·.reliability = r)) ∧
      SameTerms s.lane s'.lane := by
  rw [State.makeRoom]
  by_cases hnever : ¬ s.lane.canEverFit bytes = true
  · rw [if_pos hnever]
    exact ⟨s, queue, views, [], rfl, (List.append_nil _).symm, h, rfl, by simp,
      sameTerms_refl s.lane⟩
  · rw [if_neg hnever]
    exact h.makeRoomLoop bytes (by rw [h.len]; exact Nat.lt_succ_self _)

theorem Carries.count (h : Carries s running queue start views) (why : Refusal) :
    Carries { s with lane := s.lane.count why } running queue start views :=
  ⟨h.kept.count why, h.area, h.length, h.carried, h.records, h.head, h.budget⟩

theorem Carries.admitNow (h : Carries s running queue start views) (v : SampleView ι) :
    (∃ s' queue', s.lane.fits v.total = some (.ok ()) ∧ s.admitNow v = some s' ∧
        Carries s' running queue' start (views ++ [v]) ∧ SameTerms s.lane s'.lane ∧
        SameBooks s s') ∨
      ∃ s' why, s.lane.fits v.total = some (.error why) ∧ s.admitNow v = some s' ∧
        Carries s' running queue start views ∧ SameTerms s.lane s'.lane ∧ s'.held = s.held ∧
        ∀ r, s'.dropped r = s.dropped r + [v].countP (·.reliability = r) := by
  rcases h.write v with ⟨why, hfits, hwrite⟩ | ⟨s', queue', hfits, hwrite, hcarries, hterms, hbooks⟩
  · refine .inr ⟨State.lose { s with lane := s.lane.count why } v.reliability, why, hfits, ?_,
      (h.count why).lose _,
      ?_, ?_, fun r => ?_⟩
    · rw [State.admitNow, hwrite]
      rfl
    · rw [State.lose_lane]
      exact ⟨⟨rfl, rfl⟩, rfl⟩
    · rw [State.lose_held]
    · rw [State.dropped_lose, List.countP_singleton]
      simp only [decide_eq_true_eq]
      cases r <;> rfl
  · refine .inl ⟨s', queue', hfits, ?_, hcarries, hterms, hbooks⟩
    rw [State.admitNow, hwrite]
    rfl

theorem Carries.admitted {s₁ : State ι n} {kept lost : List (SampleView ι)} {v : SampleView ι}
    (h : Carries s₁ running queue start kept) (hheld : s₁.held = outside.map SampleView.held)
    (hterms : SameTerms s.lane s₁.lane)
    (hdropped : ∀ r, s₁.dropped r = s.dropped r + lost.countP (·.reliability = r))
    (hnone : overload ≠ .block → outside = [])
    (hfit : s₁.lane.fits v.total = some (.ok ()) → outside = [])
    (hblock : overload = .block → s.lane.stopping = false → lost = [] ∧
      (v.total ≤ s.lane.byteCapacity → s₁.lane.fits v.total = some (.ok ()))) :
    ∃ s' queue' taken refused more outside', s₁.admitNow v = some s' ∧
      Carries s' running queue' start (kept ++ more) ∧
      Admission overload s s' v outside lost taken refused more outside' := by
  rcases h.admitNow v with ⟨s', queue', hfits, hrun, hcarries, hterms', hbooks⟩ |
    ⟨s', why, hfits, hrun, hcarries, hterms', hsame, hlost⟩
  · have hempty := hfit hfits
    have hle := h.le_of_fits hfits
    refine ⟨s', queue', [v], [], [v], [], hrun, hcarries, hterms.trans hterms', ?_, rfl, ?_,
      fun r => ?_, fun _ => rfl, fun hoverload hstop => ⟨(hblock hoverload hstop).1, ?_⟩⟩
    · rw [hbooks.held, hheld, hempty]
    · rw [hempty]
      rfl
    · rw [hbooks.dropped, hdropped, List.append_nil]
    · rw [hterms.byteCapacity] at hle
      rw [List.filter_cons_of_pos (by simpa using hle), List.filter_nil]
  · refine ⟨s', queue, [], [v], [], outside, hrun, by rwa [List.append_nil],
      hterms.trans hterms', hsame.trans hheld, rfl, by simp, fun r => ?_, hnone,
      fun hoverload hstop => ⟨(hblock hoverload hstop).1, ?_⟩⟩
    · rw [hlost, hdropped, List.countP_append, Nat.add_assoc]
    · have hlong : ¬ v.total ≤ s.lane.byteCapacity := by
        intro hle
        rw [(hblock hoverload hstop).2 hle] at hfits
        cases hfits
      rw [List.filter_cons_of_neg (by simpa using hlong), List.filter_nil]

theorem Carries.admitSample (h : Carries s running queue start views)
    (hheld : s.held = outside.map SampleView.held) (hnone : overload ≠ .block → outside = [])
    (v : SampleView ι) :
    ∃ s' queue' kept lost taken refused more outside', s.admitSample v overload = some s' ∧
      views = kept ++ lost ∧ (running = true → kept ≠ []) ∧
      Carries s' running queue' start (kept ++ more) ∧
      Admission overload s s' v outside lost taken refused more outside' := by
  obtain ⟨wait, hwaits, hwait, hgo⟩ := h.waits v.total overload
  rw [State.admitSample, hwaits]
  simp only [Option.bind_eq_bind, Option.bind_some]
  cases wait with
  | true =>
    obtain ⟨hoverload, hle⟩ := hwait rfl
    refine ⟨{ s with held := s.held ++ [v.held] }, queue, views, [], [v], [], [], outside ++ [v], rfl,
      (List.append_nil _).symm, h.head, ?_, sameTerms_refl _, ?_, rfl, rfl, fun r => ?_,
      fun hother => absurd hoverload hother, fun _ _ => ⟨rfl, ?_⟩⟩
    · rw [List.append_nil]
      exact h.congr rfl rfl rfl
    · simp only
      rw [hheld, List.map_append]
      rfl
    · cases r <;> rfl
    · rw [List.filter_cons_of_pos (by simpa using hle), List.filter_nil]
  | false =>
    simp only [Bool.false_eq_true, if_false]
    by_cases hlatest : overload = .keepLatest
    · rw [if_pos hlatest]
      have hother : overload ≠ .block := by
        rw [hlatest]
        decide
      obtain ⟨s₁, queue₁, kept, lost, hroom, rfl, hcarries, hsame, hdropped, hterms⟩ :=
        h.makeRoom v.total
      obtain ⟨s', queue', taken, refused, more, outside', hrun, hcarries', hadmission⟩ :=
        hcarries.admitted (hsame.trans hheld) hterms hdropped hnone (fun _ => hnone hother)
          fun hblock => absurd hblock hother
      exact ⟨s', queue', kept, lost, taken, refused, more, outside', by rw [hroom]; exact hrun, rfl,
        hcarries.head, hcarries', hadmission⟩
    · rw [if_neg hlatest]
      have hnow : ∀ r, s.dropped r = s.dropped r +
          ([] : List (SampleView ι)).countP (·.reliability = r) := fun r => rfl
      have hempty : s.lane.fits v.total = some (.ok ()) → outside = [] := by
        intro hfits
        by_cases hblock : overload = .block
        · have hnil := (hgo rfl hblock (h.le_of_fits hfits)).1
          rw [hheld] at hnil
          exact List.map_eq_nil_iff.mp hnil
        · exact hnone hblock
      have hroom : overload = .block → s.lane.stopping = false →
          v.total ≤ s.lane.byteCapacity → s.lane.fits v.total = some (.ok ()) := by
        intro hblock hstop hle
        obtain ⟨answer, hfits⟩ := h.fits v.total
        have hroom := (hgo rfl hblock hle).2 answer hfits
        cases answer with
        | ok _ => exact hfits
        | error why =>
          rw [noRoom_of_fits hfits hstop] at hroom
          cases hroom
      obtain ⟨s', queue', taken, refused, more, outside', hrun, hcarries', hadmission⟩ :=
        h.admitted hheld (sameTerms_refl _) hnow hnone hempty
          fun hblock hstop => ⟨rfl, hroom hblock hstop⟩
      exact ⟨s', queue', views, [], taken, refused, more, outside', hrun,
        (List.append_nil _).symm, h.head, hcarries', hadmission⟩

end Admit

end WatchingZenoh.Offload
