import WatchingZenoh.Offload

/-! What an offloaded subscription's lane carries. The bytes of every waiting sample stand in the area
as they were captured, since no other sample is given a byte of them, and its record stands at the slot
the lane gave it. -/

namespace WatchingZenoh.Offload

open Backend DeliveryLane Slices

variable {ι : Type} {n : ℕ}

def SampleView.joined (v : SampleView ι) : Bytes := v.slices.flatten

theorem SampleView.length_joined (v : SampleView ι) : v.joined.length = v.total :=
  List.length_flatten

theorem splitAt?_append (a b : Bytes) : splitAt? (a ++ b) a.length = some (a, b) := by
  simp [splitAt?]

theorem cut_joined (v : SampleView ι) :
    cut v.joined v.record = some ⟨v.keyexpr, v.payload, v.attachment, v.schema⟩ := by
  have hjoined : v.joined = v.keyexpr ++ (v.payload ++ (v.attachment.getD [] ++ v.schema.getD [])) := by
    rw [SampleView.joined, SampleView.slices]
    cases v.attachment <;> cases v.schema <;> simp
  have hpart : ∀ (part : Option Bytes) (rest : Bytes),
      splitPart? (part.getD [] ++ rest) (part.map List.length) = some (part, rest) := by
    intro part rest
    cases part with
    | none => rfl
    | some part =>
      simp only [Option.getD_some, Option.map_some, splitPart?, splitAt?_append]
  have hlast := hpart v.schema []
  rw [List.append_nil] at hlast
  simp only [cut, SampleView.record, hjoined, splitAt?_append, hpart, hlast, Option.bind_eq_bind,
    Option.bind_some]

theorem laneSample_joined (v : SampleView ι) : laneSample v.joined v.record = some v := by
  rw [laneSample, cut_joined]
  simp only [Option.bind_eq_bind, Option.bind_some, Option.some.injEq]
  obtain ⟨keyexpr, payload, attachment, encoding, reliability, carried⟩ := v
  cases encoding with
  | none => rfl
  | some hint => rfl

/-- An entry of the lane with the sample it was given. -/
structure Carried (area : Bytes) (e : Entry) (v : SampleView ι) : Prop where
  phase : e.phase = .ready
  callbacks : e.callbacks = 1
  bytes : e.bytes = v.total
  slice : (area.drop e.offset).take e.bytes = v.joined

/-- The records of the waiting samples; that of the sample the consumer runs is taken. -/
def recordsOf (running : Bool) : List (SampleView ι) → List (Option (Meta ι))
  | [] => []
  | v :: views => (if running then none else some v.record) :: views.map fun v => some v.record

structure Carries (s : State ι n) (running : Bool) (queue : List Entry) (start : ℕ)
    (views : List (SampleView ι)) : Prop where
  kept : Kept s.lane queue start
  area : s.area.length = s.lane.byteCapacity
  length : queue.length = views.length
  carried : ∀ (i : ℕ) (e : Entry) (v : SampleView ι), queue[i]? = some e → views[i]? = some v →
    Carried s.area e v
  records : Ring.Reads s.records s.lane.head (recordsOf running views)
  head : running = true → views ≠ []
  budget : n ≤ s.lane.callbackBudget

namespace State

/-- What was lost of the samples that were sent so. -/
def dropped (s : State ι n) : Reliability → ℕ
  | .bestEffort => s.droppedBestEffort
  | .reliable => s.droppedReliable

theorem dropped_lose (s : State ι n) (r t : Reliability) :
    (s.lose r).dropped t = s.dropped t + if r = t then 1 else 0 := by
  cases r <;> cases t <;> rfl

@[simp] theorem lose_lane (s : State ι n) (r : Reliability) : (s.lose r).lane = s.lane := by
  cases r <;> rfl

@[simp] theorem lose_area (s : State ι n) (r : Reliability) : (s.lose r).area = s.area := by
  cases r <;> rfl

@[simp] theorem lose_records (s : State ι n) (r : Reliability) : (s.lose r).records = s.records := by
  cases r <;> rfl

@[simp] theorem lose_held (s : State ι n) (r : Reliability) : (s.lose r).held = s.held := by
  cases r <;> rfl

end State

/-- What waits outside the lane and what was lost. -/
structure SameBooks (s s' : State ι n) : Prop where
  held : s'.held = s.held
  dropped : ∀ r, s'.dropped r = s.dropped r

@[simp] theorem length_recordsOf (running : Bool) (views : List (SampleView ι)) :
    (recordsOf running views).length = views.length := by
  cases views with
  | nil => rfl
  | cons v views => simp [recordsOf]

theorem recordsOf_concat {running : Bool} {views : List (SampleView ι)}
    (hhead : running = true → views ≠ []) (v : SampleView ι) :
    recordsOf running (views ++ [v]) = recordsOf running views ++ [some v.record] := by
  cases views with
  | nil =>
    have hidle : running = false := by
      cases running with
      | false => rfl
      | true => exact absurd rfl (hhead rfl)
    rw [hidle]
    rfl
  | cons w views => simp [recordsOf]

theorem stopping_of_fits {lane : DeliveryLane n} {bytes : ℕ} (h : lane.fits bytes = some (.ok ())) :
    lane.stopping = false := by
  rw [DeliveryLane.fits] at h
  cases hstop : lane.stopping with
  | false => rfl
  | true => simp [hstop] at h

section Steps

variable {s : State ι n} {running : Bool} {queue : List Entry} {start : ℕ}
  {views : List (SampleView ι)}

theorem Carries.owed_eq (h : Carries s running queue start views) : owed queue = queue.length := by
  have hone : ∀ e ∈ queue, e.callbacks = 1 := by
    intro e he
    obtain ⟨i, hi⟩ := List.mem_iff_getElem?.mp he
    have hlt := (List.getElem?_eq_some_iff.mp hi).1
    rw [h.length] at hlt
    exact (h.carried i e _ hi (List.getElem?_eq_getElem hlt)).callbacks
  rw [owed, List.map_congr_left hone]
  simp

theorem Carries.write (h : Carries s running queue start views) (v : SampleView ι) :
    (∃ why, s.lane.fits v.total = some (.error why) ∧
        s.write v.slices v.total v.record =
          some ({ s with lane := s.lane.count why }, .error why)) ∨
      ∃ s' queue', s.lane.fits v.total = some (.ok ()) ∧
        s.write v.slices v.total v.record = some (s', .ok ()) ∧
        Carries s' running queue' start (views ++ [v]) ∧ SameTerms s.lane s'.lane ∧
        SameBooks s s' := by
  rcases h.kept.reserve v.total with ⟨why, hfits, hrun⟩ |
    ⟨lane', offset, charge, hfits, hrun, hkept, hhead, hterms, hlt⟩
  · refine .inl ⟨why, hfits, ?_⟩
    rw [State.write, hrun]
    rfl
  · set e : Entry := ⟨offset, v.total, charge, 0, .reserved⟩ with he
    have hstop := stopping_of_fits hfits
    obtain ⟨u, -, -, hplaced⟩ := placed_of_mem hkept.laid (f := e) (by simp)
    have hinside : offset + v.joined.length ≤ s.area.length := by
      rw [h.area, ← hterms.byteCapacity, v.length_joined]
      exact hplaced.inside
    have hindex : (s.lane.head + queue.length) % n = (lane'.head + queue.length) % n := by rw [hhead]
    have hidx : (s.lane.head + queue.length) % n < n := Nat.mod_lt _ (by omega)
    obtain ⟨lane'', result, hpub, hhead', hterms', hkept', hresult⟩ :=
      hkept.publish (r := ⟨(s.lane.head + queue.length) % n, offset, v.total⟩) rfl hindex 1
    have hok : result = .ok () := by
      have hbudget := h.budget
      have hpending := hkept.pending
      rw [owed_append, h.owed_eq] at hpending
      refine hresult (by rw [hterms.stopping, hstop]) ?_ ?_
      · rw [hterms.callbackBudget]
        omega
      · rw [hterms.callbackBudget, hpending]
        simp only [he, owed_cons, owed_nil]
        omega
    subst hok
    have hentry : published e 1 (.ok ()) = ⟨offset, v.total, charge, 1, .ready⟩ := rfl
    rw [hentry] at hkept'
    refine .inr ⟨⟨lane'', overlay s.area offset v.joined, s.records.setIfInBounds
      ((s.lane.head + queue.length) % n) (some v.record), s.held, s.droppedBestEffort,
      s.droppedReliable⟩, _, hfits, ?_, ⟨hkept', ?_, ?_, ?_, ?_, by simp, ?_⟩, hterms.trans hterms',
      ⟨rfl, fun r => by cases r <;> rfl⟩⟩
    · rw [State.write, hrun]
      simp only [Option.bind_eq_bind, Option.bind_some]
      rw [copyParts_eq hinside, Vector.getElem?_eq_getElem hidx]
      simp only [Option.bind_some, hpub]
      rfl
    · simp only
      rw [length_overlay hinside, h.area, hterms'.byteCapacity, hterms.byteCapacity]
    · simp [h.length]
    · intro i f w hf hw
      simp only
      by_cases hi : i < queue.length
      · rw [List.getElem?_append_left hi] at hf
        rw [List.getElem?_append_left (by rw [← h.length]; exact hi)] at hw
        have hold := h.carried i f w hf hw
        have hslice := slice_overlay_other_of_apart hinside (o := f.offset) (l := f.bytes)
          fun hpos hpos' => ?_
        · exact ⟨hold.phase, hold.callbacks, hold.bytes, hslice.trans hold.slice⟩
        · have hapart := (List.pairwise_append.mp (laid_apart hkept.laid hkept.used_le)).2.2 f
            (List.mem_of_getElem? hf) e (by simp) 0 0
          rw [SampleView.length_joined] at hpos' ⊢
          exact hapart hpos hpos'
      · have hlast : i = queue.length := by
          have hlt := (List.getElem?_eq_some_iff.mp hf).1
          rw [List.length_append, List.length_singleton] at hlt
          omega
        rw [hlast, List.getElem?_concat_length, Option.some.injEq] at hf
        rw [hlast, h.length, List.getElem?_concat_length, Option.some.injEq] at hw
        subst hf hw
        refine ⟨rfl, rfl, rfl, ?_⟩
        have hself := slice_overlay_self hinside
        rwa [v.length_joined] at hself
    · simp only
      have hpush := h.records.push (by rw [length_recordsOf, ← h.length]; exact hlt) (some v.record)
      rw [length_recordsOf, ← h.length] at hpush
      rw [hhead', hhead, recordsOf_concat h.head]
      exact hpush
    · simp only
      rw [hterms'.callbackBudget, hterms.callbackBudget]
      exact h.budget

theorem Carries.congr (h : Carries s running queue start views) {s' : State ι n}
    (hlane : s'.lane = s.lane) (harea : s'.area = s.area) (hrecords : s'.records = s.records) :
    Carries s' running queue start views := by
  refine ⟨?_, ?_, h.length, ?_, ?_, h.head, ?_⟩
  · rw [hlane]
    exact h.kept
  · rw [harea, hlane]
    exact h.area
  · rw [harea]
    exact h.carried
  · rw [hrecords, hlane]
    exact h.records
  · rw [hlane]
    exact h.budget

theorem Carries.lose (h : Carries s running queue start views) (r : Reliability) :
    Carries (s.lose r) running queue start views :=
  h.congr (s.lose_lane r) (s.lose_area r) (s.lose_records r)

theorem Carries.fits (h : Carries s running queue start views) (bytes : ℕ) :
    ∃ answer, s.lane.fits bytes = some answer := by
  rcases h.kept.reserve bytes with ⟨why, hfits, -⟩ | ⟨-, -, -, hfits, -⟩
  · exact ⟨_, hfits⟩
  · exact ⟨_, hfits⟩

theorem Carries.le_of_fits (h : Carries s running queue start views) {bytes : ℕ}
    (hfits : s.lane.fits bytes = some (.ok ())) : bytes ≤ s.lane.byteCapacity := by
  rcases h.kept.reserve bytes with ⟨why, herror, -⟩ |
    ⟨lane', offset, charge, -, -, hkept, -, hterms, -⟩
  · rw [hfits] at herror
    cases herror
  · obtain ⟨u, -, -, hplaced⟩ := placed_of_mem hkept.laid
      (f := ⟨offset, bytes, charge, 0, .reserved⟩) (by simp)
    have hinside := hplaced.inside
    rw [← hterms.byteCapacity]
    exact (Nat.le_add_left _ _).trans hinside

theorem Carries.evict {v : SampleView ι} (h : Carries s running queue start (views ++ [v]))
    (hne : views ≠ []) :
    ∃ lane' queue', s.lane.evictLatest = some (lane', some ((s.lane.head + views.length) % n)) ∧
      s.records[(s.lane.head + views.length) % n]? = some (some v.record) ∧
      SameTerms s.lane lane' ∧
      Carries { s with
        lane := lane'
        records := s.records.setIfInBounds ((s.lane.head + views.length) % n) none }
        running queue' start views := by
  have hlength := h.length
  rw [List.length_append, List.length_singleton] at hlength
  obtain ⟨init, e, rfl⟩ : ∃ init e, queue = init ++ [e] := by
    rcases List.eq_nil_or_concat queue with rfl | ⟨init, e, rfl⟩
    · simp at hlength
    · exact ⟨init, e, List.concat_eq_append⟩
  have hinit : init.length = views.length := by
    rw [List.length_append, List.length_singleton] at hlength
    omega
  have hlast : Carried s.area e v := by
    refine h.carried views.length e v ?_ (by simp)
    rw [← hinit]
    simp
  have hnil : init ≠ [] := by
    rintro rfl
    exact hne (List.length_eq_zero_iff.mp hinit.symm)
  obtain ⟨lane', hrun, hhead, hterms, hkept⟩ := h.kept.evict hnil (by simp [hlast.phase])
  have hrecords := h.records
  rw [recordsOf_concat fun _ => hne] at hrecords
  have hdrop := hrecords.drop none
  have hslot : s.records[(s.lane.head + (recordsOf running views).length) % n]? =
      some (some v.record) := hrecords.get (by simp)
  rw [length_recordsOf] at hdrop hslot
  rw [hinit] at hrun
  refine ⟨lane', init, hrun, hslot, hterms, hkept, ?_, hinit, fun i f w hf hw => ?_, ?_, fun _ => hne, ?_⟩
  · exact h.area.trans hterms.byteCapacity.symm
  · refine h.carried i f w ?_ ?_
    · rw [List.getElem?_append_left (List.getElem?_eq_some_iff.mp hf).1]
      exact hf
    · rw [List.getElem?_append_left (List.getElem?_eq_some_iff.mp hw).1]
      exact hw
  · simp only
    rw [hhead]
    exact hdrop
  · simp only
    rw [hterms.callbackBudget]
    exact h.budget

theorem Carries.len (h : Carries s running queue start views) : s.lane.len = views.length :=
  h.kept.len.trans h.length

theorem Carries.makeRoomLoop (h : Carries s running queue start views) (bytes : ℕ) {turns : ℕ}
    (hturns : views.length < turns) :
    ∃ s' queue' kept lost, s.makeRoomLoop bytes turns = some s' ∧ views = kept ++ lost ∧
      Carries s' running queue' start kept ∧ s'.held = s.held ∧
      (∀ r, s'.dropped r = s.dropped r + lost.countP (·.reliability = r)) ∧
      SameTerms s.lane s'.lane := by
  induction turns generalizing s queue views with
  | zero => omega
  | succ turns ih =>
    obtain ⟨answer, hfits⟩ := h.fits bytes
    rw [State.makeRoomLoop, hfits]
    simp only [Option.bind_eq_bind, Option.bind_some]
    by_cases hfull : State.noRoom answer = true
    · rw [if_pos hfull]
      by_cases hfew : views.length < 2
      · have hnone : s.lane.evictLatest = some (s.lane, none) := by
          rw [DeliveryLane.evictLatest, if_pos (by rw [h.len]; exact hfew)]
        rw [hnone]
        exact ⟨s, queue, views, [], rfl, (List.append_nil _).symm, h, rfl, by simp,
          sameTerms_refl s.lane⟩
      · obtain ⟨init, v, rfl⟩ : ∃ init v, views = init ++ [v] := by
          rcases List.eq_nil_or_concat views with rfl | ⟨init, v, rfl⟩
          · simp at hfew
          · exact ⟨init, v, List.concat_eq_append⟩
        rw [List.length_append, List.length_singleton] at hfew hturns
        have hne : init ≠ [] := by
          rintro rfl
          simp at hfew
        obtain ⟨lane', queue', hrun, hslot, hterms, hcarries⟩ := h.evict hne
        simp only [hrun, hslot, Option.bind_some]
        have hlost := hcarries.lose v.reliability
        have hsame : ∀ r, State.dropped { s with
            lane := lane'
            records := s.records.setIfInBounds ((s.lane.head + init.length) % n) none } r =
            s.dropped r := by
          intro r
          cases r <;> rfl
        obtain ⟨s', queue'', kept, lost, hloop, rfl, hcarries', hheld, hdropped, hterms'⟩ :=
          ih hlost (by omega)
        refine ⟨s', queue'', kept, lost ++ [v], hloop, List.append_assoc .., hcarries', ?_,
          fun r => ?_, ?_⟩
        · rw [hheld, State.lose_held]
        · rw [hdropped, State.dropped_lose, hsame, List.countP_append, List.countP_singleton]
          simp only [decide_eq_true_eq]
          omega
        · rw [State.lose_lane] at hterms'
          exact hterms.trans hterms'
    · rw [if_neg hfull]
      exact ⟨s, queue, views, [], rfl, (List.append_nil _).symm, h, rfl, by simp,
        sameTerms_refl s.lane⟩

end Steps

end WatchingZenoh.Offload
