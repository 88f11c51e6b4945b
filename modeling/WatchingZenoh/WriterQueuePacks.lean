import WatchingZenoh.WriterQueueTakes

/-! A packed take: the frames in turn that fit one write, in the order they are served, joined into one
buffer. The first frame always fits; after it one is taken while the budget that is left holds it. -/

namespace WatchingZenoh.WriterQueue

open StrictPriority

namespace LaneState

def Pack.bytes (pack : Pack) : Bytes := pack.joined.getD ((pack.first.map Prod.snd).getD [])

def Pack.addAll (budget : ℕ) (pack : Pack) (entries : List Entry) : Pack :=
  entries.foldl (Pack.add budget) pack

def fits (budget : ℕ) : Pack → List Entry → ℕ
  | _, [] => 0
  | pack, entry :: rest =>
    if pack.full entry.frame.length then 0 else fits budget (pack.add budget entry) rest + 1

def writeSize (budget : ℕ) (entries : List Entry) : ℕ := fits budget ⟨none, none, budget⟩ entries

variable {budget : ℕ} {pack : Pack} {s : LaneState}

theorem fits_le (budget : ℕ) (pack : Pack) (entries : List Entry) :
    fits budget pack entries ≤ entries.length := by
  induction entries generalizing pack with
  | nil => simp [fits]
  | cons entry rest ih =>
    rw [fits]
    split
    · exact Nat.zero_le _
    · simpa using ih _

theorem writeSize_cons (budget : ℕ) (entry : Entry) (rest : List Entry) :
    1 ≤ writeSize budget (entry :: rest) := by
  simp [writeSize, fits, Pack.full]

theorem fits_append_of_lt {front : List Entry} (back : List Entry)
    (h : fits budget pack front < front.length) :
    fits budget pack (front ++ back) = fits budget pack front := by
  induction front generalizing pack with
  | nil => simp at h
  | cons entry front ih =>
    rw [List.cons_append, fits, fits]
    by_cases hfull : pack.full entry.frame.length
    · rw [if_pos hfull, if_pos hfull]
    · rw [fits, if_neg hfull, List.length_cons] at h
      rw [if_neg hfull, if_neg hfull, ih (by omega)]

theorem fits_append_of_eq {front : List Entry} (back : List Entry)
    (h : fits budget pack front = front.length) :
    fits budget pack (front ++ back) =
      front.length + fits budget (pack.addAll budget front) back := by
  induction front generalizing pack with
  | nil => simp [Pack.addAll]
  | cons entry front ih =>
    by_cases hfull : pack.full entry.frame.length
    · rw [fits, if_pos hfull] at h
      simp at h
    · rw [fits, if_neg hfull, List.length_cons] at h
      rw [List.cons_append, fits, if_neg hfull, ih (by omega), List.length_cons, Pack.addAll,
        Pack.addAll, List.foldl_cons]
      omega

theorem packLane_eq {lane : Lane} {entries : List Entry} (hlane : s.lanes lane = entries) :
    packLane budget lane entries s pack =
      ({ s with
          lanes := Function.update s.lanes lane (entries.drop (fits budget pack entries))
          inFlight := Function.update s.inFlight lane
            (if fits budget pack entries = 0 then s.inFlight lane else
              some ((s.inFlight lane).getD 0 + ((entries.take (fits budget pack entries)).map
                (·.frame.length)).sum)) },
        pack.addAll budget (entries.take (fits budget pack entries)),
        decide (fits budget pack entries < entries.length)) := by
  induction entries generalizing s pack with
  | nil =>
    have hsame : Function.update s.lanes lane [] = s.lanes := by
      rw [← hlane, Function.update_eq_self]
    simp [packLane, fits, hsame, Pack.addAll]
  | cons entry rest ih =>
    rw [packLane, fits]
    by_cases hfull : pack.full entry.frame.length
    · have hsame : Function.update s.lanes lane (entry :: rest) = s.lanes := by
        rw [← hlane, Function.update_eq_self]
      simp [hfull, hsame, Pack.addAll]
    · rw [if_neg hfull, if_neg hfull, ih (by simp)]
      simp only [Function.update_idem, Function.update_self, List.drop_succ_cons,
        List.take_succ_cons, List.map_cons, List.sum_cons, Option.getD_some, Nat.add_eq_zero_iff,
        one_ne_zero, and_false, if_false, List.length_cons, Nat.add_lt_add_iff_right, Pack.addAll,
        List.foldl_cons]
      by_cases hzero : fits budget (pack.add budget entry) rest = 0
      · simp [hzero]
      · simp [hzero, Nat.add_assoc]

theorem tally_drop {queued : List Entry} {k : ℕ} (hk : k ≤ queued.length) :
    tally queued (queued.drop k) =
      if k = 0 then none else some ((queued.take k).map (·.frame.length)).sum := by
  rw [tally, List.length_drop]
  by_cases hzero : k = 0
  · rw [if_pos (by omega), if_pos hzero]
  · rw [if_neg (by omega), if_neg hzero, Nat.sub_sub_self hk]

theorem packLanes_eq {order : List Lane} (hnodup : order.Nodup)
    (hflight : ∀ lane ∈ order, s.inFlight lane = none) :
    packLanes budget false order s pack =
      ({ s with
          lanes := serve order (fits budget pack (waiting order s.lanes)) s.lanes
          inFlight := fun lane => if lane ∈ order then
            tally (s.lanes lane)
              (serve order (fits budget pack (waiting order s.lanes)) s.lanes lane)
            else s.inFlight lane },
        pack.addAll budget ((waiting order s.lanes).take
          (fits budget pack (waiting order s.lanes)))) := by
  induction order generalizing s pack with
  | nil => simp [packLanes, fits, Pack.addAll, serve]
  | cons lane order ih =>
    obtain ⟨hnot, hnodup⟩ := List.nodup_cons.mp hnodup
    obtain ⟨hnone, hflight⟩ := List.forall_mem_cons.mp hflight
    have hle := fits_le budget pack (s.lanes lane)
    have hne : ∀ l ∈ order, l ≠ lane := fun l hl => ne_of_mem_of_not_mem hl hnot
    rw [packLanes, if_neg (by simp), packLane_eq rfl, waiting_cons]
    rcases Nat.lt_or_ge (fits budget pack (s.lanes lane)) (s.lanes lane).length with hstop | hall
    · -- A frame of this lane does not fit: the take ends here.
      rw [fits_append_of_lt _ hstop, serve, Nat.sub_eq_zero_of_le hle, serve_zero,
        List.take_append_of_le_length hle, decide_eq_true hstop]
      have hrest : (fun l => if l ∈ lane :: order then tally (s.lanes l) (Function.update s.lanes
          lane ((s.lanes lane).drop (fits budget pack (s.lanes lane))) l) else s.inFlight l) =
          Function.update s.inFlight lane (if fits budget pack (s.lanes lane) = 0 then
            s.inFlight lane else some ((s.inFlight lane).getD 0 + (((s.lanes lane).take
              (fits budget pack (s.lanes lane))).map (·.frame.length)).sum)) := by
        funext l
        by_cases hl : l = lane
        · subst hl
          rw [if_pos (by simp), Function.update_self, Function.update_self, tally_drop hle, hnone]
          simp
        · rw [Function.update_of_ne hl, Function.update_of_ne hl, tally_self]
          split
          · next hmem =>
            exact (hflight l ((List.mem_cons.mp hmem).resolve_left hl)).symm
          · rfl
      rw [hrest]
    · have hfull : fits budget pack (s.lanes lane) = (s.lanes lane).length := by omega
      rw [hfull, decide_eq_false (by omega), List.take_length, List.drop_length]
      simp only
      rw [ih hnodup fun l hl => by
        simp only [Function.update_of_ne (hne l hl)]
        exact hflight l hl]
      have hwait : waiting order (Function.update s.lanes lane []) = waiting order s.lanes :=
        waiting_congr fun l hl => Function.update_of_ne (hne l hl) _ _
      simp only [hwait, fits_append_of_eq _ hfull, serve, Nat.add_sub_cancel_left,
        List.take_length_add_append, Pack.addAll, List.foldl_append]
      rw [List.drop_of_length_le (Nat.le_add_right _ _)]
      have hrest : (fun l => if l ∈ order then tally (Function.update s.lanes lane [] l)
            (serve order (fits budget (pack.addAll budget (s.lanes lane)) (waiting order s.lanes))
              (Function.update s.lanes lane []) l)
          else Function.update s.inFlight lane (if (s.lanes lane).length = 0 then s.inFlight lane
            else some ((s.inFlight lane).getD 0 + ((s.lanes lane).map (·.frame.length)).sum)) l) =
          fun l => if l ∈ lane :: order then tally (s.lanes l) (serve order
            (fits budget (pack.addAll budget (s.lanes lane)) (waiting order s.lanes))
              (Function.update s.lanes lane []) l) else s.inFlight l := by
        funext l
        by_cases hl : l = lane
        · subst hl
          have hmem : l ∈ l :: order := List.mem_cons_self
          rw [if_neg hnot, Function.update_self, if_pos hmem, serve_of_notMem hnot,
            Function.update_self, hnone, tally, List.length_nil, Nat.sub_zero, List.take_length]
          simp
        · rw [Function.update_of_ne hl, Function.update_of_ne hl]
          simp [hl]
      simp only [Pack.addAll] at hrest
      rw [hrest]

theorem packLanes_held (order : List Lane) : packLanes budget true order s pack =
    packLanes budget false (order.filter (· ≠ s.controlLane)) s pack := by
  induction order generalizing s pack with
  | nil => rfl
  | cons lane order ih =>
    by_cases hlane : lane = s.controlLane
    · rw [packLanes, if_pos ⟨rfl, hlane⟩, ih, List.filter_cons_of_neg (by simpa using hlane)]
    · have hcontrol : (packLane budget lane (s.lanes lane) s pack).1.controlLane =
          s.controlLane := by
        rw [packLane_eq rfl]
        rfl
      rw [packLanes, if_neg fun h => hlane h.2, List.filter_cons_of_pos (by simpa using hlane),
        packLanes, if_neg (by simp)]
      generalize packLane budget lane (s.lanes lane) s pack = result at hcontrol
      obtain ⟨s', pack', stop⟩ := result
      cases stop with
      | true => rfl
      | false =>
        simp only at hcontrol ⊢
        rw [ih, hcontrol]

theorem packLanes_turn : packLanes budget (decide s.Owes) (List.finRange 8) s pack =
    packLanes budget false s.turn s pack := by
  have hfilter : ∀ c : Lane, (List.finRange 8).filter (· ≠ c) =
      (List.finRange 8).filter (· < c) ++ (List.finRange 8).filter (c < ·) := by decide
  by_cases howes : s.Owes
  · rw [decide_eq_true howes, packLanes_held, hfilter, turn, if_pos howes]
    rfl
  · rw [decide_eq_false howes, turn, if_neg howes]

def Pack.Sound (pack : Pack) : Prop := pack.first = none → pack.joined = none

theorem Pack.bytes_add (h : pack.Sound) (entry : Entry) :
    (pack.add budget entry).bytes = pack.bytes ++ entry.frame := by
  cases hfirst : pack.first with
  | none => simp [Pack.add, Pack.bytes, hfirst, h hfirst]
  | some head => simp [Pack.add, Pack.bytes, hfirst]

theorem Pack.first_addAll (entries : List Entry) {head : Priority × Bytes}
    (h : pack.first = some head) :
    (pack.addAll budget entries).first = some head ∧
      (pack.addAll budget entries).bytes = pack.bytes ++ entries.flatMap (·.frame) := by
  induction entries generalizing pack with
  | nil => simp [Pack.addAll, h]
  | cons entry rest ih =>
    have hsound : pack.Sound := fun hnone => by simp [h] at hnone
    have hnext : (pack.add budget entry).first = some head := by simp [Pack.add, h]
    obtain ⟨hfirst, hbytes⟩ := ih hnext
    refine ⟨hfirst, hbytes.trans ?_⟩
    rw [Pack.bytes_add hsound, List.flatMap_cons, List.append_assoc]

theorem addAll_eq (budget : ℕ) (entry : Entry) (rest : List Entry) :
    ((⟨none, none, budget⟩ : Pack).addAll budget (entry :: rest)).first =
        some (entry.priority, entry.frame) ∧
      ((⟨none, none, budget⟩ : Pack).addAll budget (entry :: rest)).bytes =
        (entry :: rest).flatMap (·.frame) := by
  have hadd : ((⟨none, none, budget⟩ : Pack).add budget entry).first =
      some (entry.priority, entry.frame) := rfl
  exact Pack.first_addAll rest hadd

theorem owes_asked : s.asked.Owes ↔ s.Owes := by
  by_cases howes : s.Owes
  · have hfence : s.asked.fence = s.fence := if_pos howes
    refine iff_of_true ?_ howes
    obtain ⟨entry, hmem, hlt⟩ := howes
    exact ⟨entry, hmem, by rw [hfence]; exact hlt⟩
  · have hfence : s.asked.fence = 0 := if_neg howes
    refine iff_of_false ?_ howes
    rintro ⟨entry, -, hlt⟩
    omega

theorem turn_asked : s.asked.turn = s.turn := by
  by_cases howes : s.Owes
  · rw [turn, if_pos (owes_asked.mpr howes), turn, if_pos howes]
    rfl
  · rw [turn, if_neg fun h => howes (owes_asked.mp h), turn, if_neg howes]

theorem packLanes_asked (budget : ℕ) :
    packLanes budget (decide s.Owes) (List.finRange 8) s.asked ⟨none, none, budget⟩ =
      (s.served (writeSize budget (waiting s.turn s.lanes)),
        (⟨none, none, budget⟩ : Pack).addAll budget ((waiting s.turn s.lanes).take
          (writeSize budget (waiting s.turn s.lanes)))) := by
  have hdecide : decide s.Owes = decide s.asked.Owes := by simp only [owes_asked]
  rw [hdecide, packLanes_turn, turn_asked, packLanes_eq s.nodup_turn fun _ _ => rfl]
  have hflight : ∀ n, (fun lane => if lane ∈ s.turn then
      tally (s.asked.lanes lane) (serve s.turn n s.asked.lanes lane) else s.asked.inFlight lane) =
        fun lane => tally (s.lanes lane) (serve s.turn n s.lanes lane) := by
    intro n
    funext lane
    split
    · rfl
    · next hnot =>
      rw [serve_of_notMem hnot, tally_self]
      rfl
  rw [hflight]
  rfl

theorem takeNextPacked_empty (hnum : s.Numbered) (hurgent : s.urgent = [])
    (hnone : waiting s.turn s.lanes = []) :
    s.takeNextPacked budget = (.empty, s.releaseInFlight.2, s.served 0) := by
  unfold takeNextPacked
  simp only [takeUrgent_release hurgent, controlHeldByFence_release hnum, packLanes_asked budget,
    hnone]
  rfl

theorem takeNextPacked_cons (hnum : s.Numbered) (hurgent : s.urgent = []) {entry : Entry}
    {rest : List Entry} (hfirst : waiting s.turn s.lanes = entry :: rest) :
    s.takeNextPacked budget =
      (.frame entry.priority (((entry :: rest).take
        (writeSize budget (entry :: rest))).flatMap (·.frame)), s.releaseInFlight.2,
        s.served (writeSize budget (entry :: rest))) := by
  obtain ⟨n, hn⟩ : ∃ n, writeSize budget (entry :: rest) = n + 1 :=
    ⟨_, (Nat.sub_add_cancel (writeSize_cons budget entry rest)).symm⟩
  obtain ⟨hhead, hbytes⟩ := addAll_eq budget entry (rest.take n)
  unfold takeNextPacked
  simp only [takeUrgent_release hurgent, controlHeldByFence_release hnum, packLanes_asked budget,
    hfirst, hn, List.take_succ_cons]
  generalize (⟨none, none, budget⟩ : Pack).addAll budget (entry :: rest.take n) = pack at hhead hbytes
  rw [← hbytes, hhead, Pack.bytes, hhead]
  cases pack.joined with
  | none => rfl
  | some buffer => rfl

end LaneState

end WatchingZenoh.WriterQueue
