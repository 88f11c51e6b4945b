import WatchingZenoh.StreamWindowTurns

/-! The pushes of a stream: however it is cut into pushes, the window hands out the payloads of its
length-prefixed parse, and fails where the parse does. -/

namespace WatchingZenoh.StreamWindow

variable {C : Type} {carry : Carry C} {room : ℕ → Bool} {Idle : C → Prop}
  {Holds : C → ℕ → Bytes → Prop}

/-- What the pushes so far come to, with `rest` still to arrive. -/
structure Reaches (room : ℕ → Bool) (Idle : C → Prop) (Holds : C → ℕ → Bytes → Prop)
    (parsed : List Bytes × Ending) (rest : List Arrived) (frames : List Bytes) (r : Pushed C) :
    Prop where
  goesOn : r.error = none → ∃ u, At room Idle Holds r.window u ∧
    parsed = ahead frames (parse room (u ++ rest))
  fails : ∀ error, r.error = some error → ∃ ending : Ending, ending.error = some error ∧
    parsed = (frames, ending)

variable {push : ℕ} {lowlatency : Bool} {rest : List Arrived}

theorem At.advance (hlaw : Lawful carry room Idle Holds) {w : RxWindow C} {u : List Arrived}
    {bytes : Bytes} (hat : At room Idle Holds w u) (hstate : w.state ≠ .between) (hne : bytes ≠ [])
    (hrest : ∀ a ∈ rest, a.push ≠ push) (width : ℕ) :
    ∃ t, turn carry w bytes width = some t ∧
      Advance room Idle Holds (fun bytes => arrive push lowlatency bytes ++ rest) u bytes t := by
  cases hat with
  | between hidle => exact absurd rfl hstate
  | inPrefix hidle hu hlow hlen =>
    refine ⟨_, rfl, advance_inPrefix hidle hne (fun a ha => hlow a ?_) hlen⟩
    rw [List.head?_append_of_ne_nil _ hu] at ha
    exact ha
  | start hidle hlow hlen hpos hmax => exact advance_start hlaw hidle hne hlow hlen hpos hmax hrest
  | payload hlow hlen hmax hroom hheld hpart hholds =>
    exact advance_payload hlaw hne hlow hlen hmax hroom hheld hpart hholds

theorem pushLoop_of_advance {w : RxWindow C} {u : List Arrived} {bytes : Bytes}
    {frames : List Bytes} {fuel : ℕ} (hne : bytes ≠ []) {t : Turn C}
    (hturn : turn carry w bytes (prefixWidth lowlatency) = some t)
    (hadvance : Advance room Idle Holds (fun bytes => arrive push lowlatency bytes ++ rest) u bytes t)
    (hloop : ∀ (w' : RxWindow C) (u' : List Arrived) (left : Bytes) (frames : List Bytes),
      At room Idle Holds w' u' → left.length < bytes.length →
      ∃ r more, pushLoop carry (prefixWidth lowlatency) fuel w' left frames = some r ∧
        r.frames = frames ++ more ∧
        Reaches room Idle Holds (parse room (u' ++ (arrive push lowlatency left ++ rest))) rest more
          r) :
    ∃ r more, pushLoop carry (prefixWidth lowlatency) (fuel + 1) w bytes frames = some r ∧
      r.frames = frames ++ more ∧
      Reaches room Idle Holds (parse room (u ++ (arrive push lowlatency bytes ++ rest))) rest more r := by
  have hempty : ¬ bytes.isEmpty = true := by simpa using hne
  have hlen : 0 < bytes.length := List.length_pos_iff.mpr hne
  rw [pushLoop, if_neg hempty]
  simp only [hturn, Option.bind_some]
  cases hadvance with
  | @goOn w' out n hpos u' hat hparse =>
    obtain ⟨r, more, hrun, hframes, hreaches⟩ := hloop w' u' (bytes.drop n) (frames ++ out) hat
      (by rw [List.length_drop]; omega)
    refine ⟨r, out ++ more, hrun, by rw [hframes, List.append_assoc], fun hnone => ?_,
      fun error herror => ?_⟩
    · obtain ⟨u'', hat', hparsed⟩ := hreaches.goesOn hnone
      exact ⟨u'', hat', by rw [hparse, hparsed, ahead_ahead]⟩
    · obtain ⟨ending, hend, hparsed⟩ := hreaches.fails error herror
      exact ⟨ending, hend, by rw [hparse, hparsed]; rfl⟩
  | fail ending hend hparse =>
    refine ⟨_, [], rfl, (List.append_nil _).symm, fun hnone => by simp at hnone,
      fun error herror => ?_⟩
    cases herror
    exact ⟨ending, hend, hparse⟩

theorem pushLoop_reaches (hlaw : Lawful carry room Idle Holds) (hrest : ∀ a ∈ rest, a.push ≠ push)
    {bytes : Bytes} {w : RxWindow C} {u : List Arrived} (hat : At room Idle Holds w u) {fuel : ℕ}
    (hfuel : 2 * bytes.length ≤ fuel) (frames : List Bytes) :
    ∃ r more, pushLoop carry (prefixWidth lowlatency) fuel w bytes frames = some r ∧
      r.frames = frames ++ more ∧
      Reaches room Idle Holds (parse room (u ++ (arrive push lowlatency bytes ++ rest))) rest more r := by
  induction hn : bytes.length using Nat.strong_induction_on generalizing bytes w u fuel frames with
  | _ len ih =>
    by_cases hne : bytes = []
    · subst hne
      refine ⟨⟨w, frames, none⟩, [], by rw [pushLoop.eq_def]; rfl, (List.append_nil _).symm,
        fun _ => ⟨u, hat, rfl⟩, fun error herror => by simp at herror⟩
    · have hpos : 0 < bytes.length := List.length_pos_iff.mpr hne
      obtain ⟨fuel, rfl⟩ : ∃ f, fuel = f + 1 := ⟨fuel - 1, by omega⟩
      by_cases hstate : w.state = .between
      · -- The first byte starts a prefix, and the turn that says so takes none.
        cases hat with
        | between hidle =>
          obtain ⟨fuel, rfl⟩ : ∃ f, fuel = f + 1 := ⟨fuel - 1, by omega⟩
          have hempty : ¬ bytes.isEmpty = true := by simpa using hne
          rw [pushLoop, if_neg hempty]
          simp only [turn, Option.bind_some, List.append_nil]
          refine pushLoop_of_advance hne rfl (advance_inPrefix hidle (u := []) hne ?_
              (by have := two_le_prefixWidth lowlatency; simp only [List.length_nil]; omega))
            fun w' u' left frames hat' hleft => ih left.length (by omega) hat' (by omega) frames rfl
          obtain ⟨byte, more, rfl⟩ := List.exists_cons_of_ne_nil hne
          simp [arrive]
        | inPrefix => simp at hstate
        | start => simp at hstate
        | payload => simp at hstate
      · obtain ⟨t, hturn, hadvance⟩ := hat.advance hlaw hstate hne hrest (prefixWidth lowlatency)
        exact pushLoop_of_advance hne hturn hadvance fun w' u' left frames hat' hleft =>
          ih left.length (by omega) hat' (by omega) frames rfl

/-- The bytes of the pushes, numbered from `k`. -/
def arrivals : ℕ → List Push → List Arrived
  | _, [] => []
  | k, p :: rest => arrive k p.lowlatency p.bytes ++ arrivals (k + 1) rest

theorem le_push_of_mem_arrivals {k : ℕ} {pushes : List Push} {a : Arrived}
    (h : a ∈ arrivals k pushes) : k ≤ a.push := by
  induction pushes generalizing k with
  | nil => simp [arrivals] at h
  | cons p pushes ih =>
    rcases List.mem_append.mp h with h | h
    · rw [push_of_mem_arrive h]
    · exact (Nat.le_succ k).trans (ih h)

theorem pushAll_reaches (hlaw : Lawful carry room Idle Holds) (pushes : List Push) (k : ℕ)
    {w : RxWindow C} {u : List Arrived} (hat : At room Idle Holds w u) :
    ∃ r, pushAll carry w pushes = some r ∧
      Reaches room Idle Holds (parse room (u ++ arrivals k pushes)) [] r.frames r := by
  induction pushes generalizing k w u with
  | nil =>
    refine ⟨_, rfl, fun _ => ⟨u, hat, rfl⟩, fun error herror => by simp at herror⟩
  | cons p pushes ih =>
    have hrest : ∀ a ∈ arrivals (k + 1) pushes, a.push ≠ k := fun a ha => by
      have := le_push_of_mem_arrivals ha
      omega
    obtain ⟨first, more, hpush, hframes, hreaches⟩ :
        ∃ r more, push carry w p.bytes (prefixWidth p.lowlatency) = some r ∧
          r.frames = [] ++ more ∧
          Reaches room Idle Holds
            (parse room (u ++ (arrive k p.lowlatency p.bytes ++ arrivals (k + 1) pushes)))
            (arrivals (k + 1) pushes) more r :=
      pushLoop_reaches hlaw hrest hat (le_refl (2 * p.bytes.length)) []
    rw [List.nil_append] at hframes
    subst hframes
    rw [pushAll, hpush]
    simp only [Option.bind_eq_bind, Option.bind_some]
    cases herror : first.error with
    | some error =>
      refine ⟨first, rfl, fun hnone => by simp [herror] at hnone, fun error' herror' => ?_⟩
      exact hreaches.fails error' herror'
    | none =>
      obtain ⟨u', hat', hparsed⟩ := hreaches.goesOn herror
      obtain ⟨r, hrun, hrest⟩ := ih (k + 1) hat'
      simp only [hrun, Option.bind_some]
      refine ⟨_, rfl, fun hnone => ?_, fun error herror => ?_⟩
      · obtain ⟨u'', hat'', hlast⟩ := hrest.goesOn hnone
        exact ⟨u'', hat'', by rw [arrivals, hparsed, hlast, ahead_ahead]⟩
      · obtain ⟨ending, hend, hlast⟩ := hrest.fails error herror
        exact ⟨ending, hend, by rw [arrivals, hparsed, hlast]; rfl⟩

theorem At.parse_eq {w : RxWindow C} {u : List Arrived} (hat : At room Idle Holds w u) :
    ∃ ending : Ending, parse room u = ([], ending) ∧ ending.error = none ∧
      (w.betweenFrames = true ↔ ending = .boundary) := by
  cases hat with
  | between hidle => exact ⟨.boundary, parse_nil, rfl, by simp [RxWindow.betweenFrames]⟩
  | inPrefix hidle hu hlow hlen =>
    exact ⟨.inPrefix, parse_short hu hlow hlen, rfl, by simp [RxWindow.betweenFrames]⟩
  | @start c hidle head low hlow hlen hpos hmax =>
    refine ⟨.inPayload, ?_, rfl, by simp [RxWindow.betweenFrames]⟩
    rw [← List.append_nil u, parse_frame hlow hlen, if_neg (Nat.not_lt.mpr hmax)]
    simp [cut, Nat.pos_of_ne_zero hpos]
  | @payload c head held low hlow hlen hmax hroom hheld hpart hholds =>
    refine ⟨.inPayload, ?_, rfl, by simp [RxWindow.betweenFrames]⟩
    rw [parse_frame hlow hlen, if_neg (Nat.not_lt.mpr hmax), hroom]
    simp [hpart]

/-- What a window that was pushed a stream did: it handed out the payloads of the parse, failed where
the parse did, and is between frames where the stream is. -/
structure Follows (parsed : List Bytes × Ending) (r : Pushed C) : Prop where
  frames : r.frames = parsed.1
  error : r.error = parsed.2.error
  between : r.error = none → (r.window.betweenFrames = true ↔ parsed.2 = .boundary)

theorem pushAll_follows (hlaw : Lawful carry room Idle Holds) {c : C} (hidle : Idle c)
    (pushes : List Push) :
    ∃ r, pushAll carry ⟨.between, c⟩ pushes = some r ∧ Follows (parse room (arrivals 0 pushes)) r := by
  obtain ⟨r, hrun, hreaches⟩ := pushAll_reaches hlaw pushes 0 (.between hidle)
  rw [List.nil_append] at hreaches
  refine ⟨r, hrun, ?_⟩
  cases herror : r.error with
  | some error =>
    obtain ⟨ending, hend, hparsed⟩ := hreaches.fails error herror
    rw [hparsed]
    exact ⟨rfl, herror.trans hend.symm, fun hnone => by simp [herror] at hnone⟩
  | none =>
    obtain ⟨u, hat, hparsed⟩ := hreaches.goesOn herror
    obtain ⟨ending, hlast, hend, hbetween⟩ := hat.parse_eq
    rw [List.append_nil, hlast] at hparsed
    rw [hparsed]
    exact ⟨(List.append_nil _).symm, herror.trans hend.symm, fun _ => hbetween⟩

/-- However a stream is cut into pushes, a window over a heap carry follows the parse of its bytes, and
one over a carry of `N` bytes does so with the frames broken off that are longer than the carry and
whose payload does not lie whole in one push. -/
theorem window_follows (pushes : List Push) :
    (∃ r, pushAll heapCarry ⟨.between, []⟩ pushes = some r ∧
      Follows (parse (fun _ => true) (atOnce (arrivals 0 pushes))) r) ∧
    ∀ N, ∃ r, pushAll (fixedCarry N) ⟨.between, FixedCarry.new N⟩ pushes = some r ∧
      Follows (parse (fun want => decide (want ≤ N)) (arrivals 0 pushes)) r := by
  refine ⟨?_, fun N => pushAll_follows (lawful_fixedCarry N) trivial pushes⟩
  rw [parse_atOnce]
  exact pushAll_follows lawful_heapCarry rfl pushes

/-- A frame cut between its prefix and its payload is longer than the carry, and is handed out. -/
theorem fixed_lends_cut_frame :
    (pushAll (fixedCarry 1) ⟨.between, FixedCarry.new 1⟩
      [⟨[2, 0], false⟩, ⟨[7, 8], false⟩]).map (fun r => (r.frames, r.error)) =
      some ([[7, 8]], none) := by
  decide

end WatchingZenoh.StreamWindow
