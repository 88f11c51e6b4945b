import WatchingZenoh.WriterQueuePacks

/-! The wire a queue makes when nothing more is sent: the frames of repeated takes, one by one or
packed. Both serve the lanes in priority; a packed take asks the fence once, and may carry frames
behind it past the turn of the control lane. -/

namespace WatchingZenoh.WriterQueue

open StrictPriority LaneState

/-- The frames handed out by repeated takes, until one finds nothing. -/
def handedOut (take : LaneState → Taken × Bool × LaneState) : ℕ → LaneState → Option (List Bytes)
  | 0, _ => none
  | fuel + 1, s =>
    match take s with
    | (.empty, _, _) => some []
    | (.frame _ bytes, _, s) => (handedOut take fuel s).map (bytes :: ·)

/-- How many entries there are up to the last one the fence waits for. -/
def owedCount (fence : ℕ) : List Entry → ℕ
  | [] => 0
  | entry :: rest =>
    if entry.seq < fence ∨ 0 < owedCount fence rest then owedCount fence rest + 1 else 0

/-- How many entries are taken, `size` at a time, until the owed ones are. -/
def reach (size : List Entry → ℕ) : ℕ → ℕ → List Entry → ℕ
  | 0, _, _ => 0
  | _ + 1, 0, _ => 0
  | turns + 1, owed + 1, entries =>
    size entries + reach size turns (owed + 1 - size entries) (entries.drop (size entries))

namespace LaneState

variable (s : LaneState)

def owed : ℕ := owedCount s.fence s.others

/-- The entries that leave before the control lane's turn, taken one by one. -/
def due : ℕ := max s.owed s.early.length

/-- The entries of the other lanes that leave before the control lane's, packed: a write that starts
while the control lane is held does not stop where the fence is passed. -/
def packedDue (budget : ℕ) : ℕ :=
  max (reach (writeSize budget) s.owed s.owed s.others) s.early.length

/-- The frames a packed write carries past the turn of the control lane. -/
def overtaking (budget : ℕ) : Bytes :=
  ((s.others.take (s.packedDue budget)).drop s.due).flatMap (·.frame)

def controlBytes : Bytes := (s.lanes s.controlLane).flatMap (·.frame)

def order : List Entry := waiting (List.finRange 8) s.lanes

/-- What leaves, with the control lane's turn behind the first entries of the others. -/
def dealt (turns : ℕ) : List Entry :=
  s.others.take turns ++ s.lanes s.controlLane ++ s.others.drop turns

end LaneState

theorem owedCount_pos {fence : ℕ} {entries : List Entry} :
    0 < owedCount fence entries ↔ ∃ entry ∈ entries, entry.seq < fence := by
  induction entries with
  | nil => simp [owedCount]
  | cons entry rest ih =>
    rw [owedCount, List.exists_mem_cons_iff, ← ih]
    split
    · simp_all
    · simp_all

theorem owedCount_drop (fence n : ℕ) (entries : List Entry) :
    owedCount fence (entries.drop n) = owedCount fence entries - n := by
  induction entries generalizing n with
  | nil => simp [owedCount]
  | cons entry rest ih =>
    cases n with
    | zero => rfl
    | succ n =>
      rw [List.drop_succ_cons, ih, owedCount]
      split
      · omega
      · next h =>
        have : owedCount fence rest = 0 := by omega
        omega

/-- A take that serves the entries in turn, so many at a time. -/
structure Serves (take : LaneState → Taken × Bool × LaneState) (size : List Entry → ℕ) : Prop where
  pos : ∀ entry rest, 1 ≤ size (entry :: rest)
  urgent : ∀ s : LaneState, ∀ frame rest, s.urgent = frame :: rest →
    take s = (.frame .control frame, s.releaseInFlight.2, { s.releaseInFlight.1 with urgent := rest })
  none : ∀ s : LaneState, s.Numbered → s.urgent = [] → waiting s.turn s.lanes = [] →
    take s = (.empty, s.releaseInFlight.2, s.served 0)
  some : ∀ s : LaneState, s.Numbered → s.urgent = [] → ∀ entry rest,
    waiting s.turn s.lanes = entry :: rest →
    take s = (.frame entry.priority (((entry :: rest).take (size (entry :: rest))).flatMap (·.frame)),
      s.releaseInFlight.2, s.served (size (entry :: rest)))

theorem serves_takeNext : Serves takeNext fun _ => 1 where
  pos _ _ := le_rfl
  urgent s frame rest h := by
    unfold takeNext
    simp [takeUrgent, releaseInFlight, h]
  none s hnum hurgent h := takeNext_empty hnum hurgent h
  some s hnum hurgent entry rest h := by
    rw [takeNext_cons hnum hurgent h]
    simp

theorem serves_takeNextPacked (budget : ℕ) : Serves (takeNextPacked · budget) (writeSize budget) where
  pos := writeSize_cons budget
  urgent s frame rest h := by
    unfold takeNextPacked
    simp [takeUrgent, releaseInFlight, h]
  none s hnum hurgent h := takeNextPacked_empty hnum hurgent h
  some s hnum hurgent entry rest h := takeNextPacked_cons hnum hurgent h

section Runs

variable {take : LaneState → Taken × Bool × LaneState} {size : List Entry → ℕ} {s : LaneState}

theorem numbered_served (hnum : s.Numbered) (n : ℕ) : (s.served n).Numbered := fun lane =>
  (hnum lane).sublist (serve_suffix _ _ _ _).sublist

theorem order_eq : s.order = s.early ++ (s.lanes s.controlLane ++ s.late) := by
  rw [order, s.finRange_eq_lows, waiting_append, waiting_cons]
  rfl

theorem turn_of_owes (howes : s.Owes) : s.turn = s.lows ++ s.highs := if_pos howes

theorem turn_of_free (hfree : ¬ s.Owes) : s.turn = List.finRange 8 := if_neg hfree

theorem served_of_owes (howes : s.Owes) (n : ℕ) :
    (s.served n).early = s.early.drop n ∧ (s.served n).others = s.others.drop n ∧
      (s.served n).lanes s.controlLane = s.lanes s.controlLane ∧ (s.served n).fence = s.fence := by
  obtain ⟨hearly, hlate⟩ := waiting_serve_append s.nodup_others n s.lanes
  have hlanes : (s.served n).lanes = serve (s.lows ++ s.highs) n s.lanes := by
    rw [← turn_of_owes howes]
    rfl
  have he : (s.served n).early = s.early.drop n := by
    rw [early, hlanes]
    exact hearly
  have hl : (s.served n).late = s.late.drop (n - s.early.length) := by
    rw [late, hlanes]
    exact hlate
  refine ⟨he, ?_, ?_, if_pos howes⟩
  · rw [others, he, hl, others, List.drop_append]
  · rw [hlanes]
    exact serve_of_notMem (fun h => s.mem_others_iff.mp h rfl) _ _

theorem served_of_free (hfree : ¬ s.Owes) (n : ℕ) :
    (s.served n).order = s.order.drop n ∧ ¬ (s.served n).Owes := by
  have hfence : (s.served n).fence = 0 := if_neg hfree
  constructor
  · rw [order, order, ← waiting_serve (List.nodup_finRange 8), ← turn_of_free hfree]
    rfl
  · rintro ⟨entry, -, hlt⟩
    omega

theorem handedOut_free (hserves : Serves take size) (hnum : s.Numbered) (hurgent : s.urgent = [])
    (hfree : ¬ s.Owes) {fuel : ℕ} (hfuel : s.order.length < fuel) :
    ∃ handed, handedOut take fuel s = some handed ∧
      handed.flatten = s.order.flatMap (·.frame) := by
  induction fuel generalizing s with
  | zero => omega
  | succ fuel ih =>
    have hturn : waiting s.turn s.lanes = s.order := by rw [turn_of_free hfree, order]
    cases hwait : s.order with
    | nil =>
      refine ⟨[], ?_, rfl⟩
      rw [handedOut, hserves.none s hnum hurgent (hturn.trans hwait)]
    | cons entry rest =>
      have hpos := hserves.pos entry rest
      obtain ⟨horder, hfree'⟩ := served_of_free hfree (size (entry :: rest))
      rw [hwait] at horder hfuel
      obtain ⟨handed, hrun, hbytes⟩ := ih (numbered_served hnum _) hurgent hfree'
        (by rw [horder, List.length_drop]; simp only [List.length_cons] at hfuel ⊢; omega)
      refine ⟨((entry :: rest).take (size (entry :: rest))).flatMap (·.frame) :: handed, ?_, ?_⟩
      · rw [handedOut, hserves.some s hnum hurgent entry rest (hturn.trans hwait)]
        simp only [hrun, Option.map_some]
      · rw [List.flatten_cons, hbytes, horder, ← List.flatMap_append, List.take_append_drop]

theorem length_order : s.order.length = s.others.length + (s.lanes s.controlLane).length := by
  rw [order_eq, others]
  simp only [List.length_append]
  omega

theorem owes_iff_owed : s.Owes ↔ 0 < s.owed := owedCount_pos.symm

theorem dealt_early : s.dealt s.early.length = s.order := by
  rw [dealt, order_eq, others, List.take_left, List.drop_left, List.append_assoc]

/-- The frames handed out: those of the other lanes until the owed ones are taken, and then all that
is left, in priority. -/
theorem handedOut_held (hserves : Serves take size) (hnum : s.Numbered) (hurgent : s.urgent = [])
    {fuel turns : ℕ} (hfuel : s.order.length < fuel) (hturns : s.owed ≤ turns) :
    ∃ handed, handedOut take fuel s = some handed ∧ handed.flatten =
      (s.dealt (max (reach size turns s.owed s.others) s.early.length)).flatMap (·.frame) := by
  induction turns generalizing s fuel with
  | zero =>
    have hfree : ¬ s.Owes := fun howes => by
      have := owes_iff_owed.mp howes
      omega
    rw [reach, Nat.zero_max, dealt_early]
    exact handedOut_free hserves hnum hurgent hfree hfuel
  | succ turns ih =>
    by_cases howes : s.Owes
    · obtain ⟨owed, howed⟩ : ∃ owed, s.owed = owed + 1 :=
        ⟨s.owed - 1, by have := owes_iff_owed.mp howes; omega⟩
      have hturn : waiting s.turn s.lanes = s.others := by
        rw [turn_of_owes howes, waiting_append]
        rfl
      obtain ⟨first, hmem, -⟩ := howes
      obtain ⟨entry, rest, hothers⟩ := List.exists_cons_of_ne_nil (List.ne_nil_of_mem hmem)
      have howes : s.Owes := owes_iff_owed.mpr (by omega)
      have hpos := hserves.pos entry rest
      obtain ⟨fuel, rfl⟩ : ∃ f, fuel = f + 1 := ⟨fuel - 1, by omega⟩
      rw [← hothers] at hpos
      set k := size s.others with hk
      obtain ⟨hearly, hrest, hcontrol, hfence⟩ := served_of_owes howes k
      have hlen : s.others.length = rest.length + 1 := by rw [hothers, List.length_cons]
      have hlength := length_order (s := s)
      have hlength' : (s.served k).order.length =
          s.others.length - k + (s.lanes s.controlLane).length := by
        rw [length_order, hrest, List.length_drop, ← hcontrol]
        rfl
      have howed' : (s.served k).owed = s.owed - k := by
        rw [LaneState.owed, hrest, hfence, owedCount_drop]
        rfl
      obtain ⟨handed, hrun, hbytes⟩ := ih (numbered_served hnum k) hurgent
        (by omega : (s.served k).order.length < fuel) (by omega)
      refine ⟨(s.others.take k).flatMap (·.frame) :: handed, ?_, ?_⟩
      · rw [handedOut, hserves.some s hnum hurgent entry rest (hturn.trans hothers), ← hothers, ← hk]
        simp only [hrun, Option.map_some]
      · -- The entries of this take, and what is dealt behind them.
        have hdue : max (reach size (turns + 1) s.owed s.others) s.early.length =
            k + max (reach size turns (s.owed - k) (s.others.drop k)) (s.early.length - k) := by
          rw [howed, reach, ← hk]
          omega
        rw [List.flatten_cons, hbytes, howed', hrest, hearly, List.length_drop, hdue,
          ← List.flatMap_append, dealt, dealt, hrest, List.take_add, ← List.drop_drop,
          show (s.served k).lanes (s.served k).controlLane = s.lanes s.controlLane from hcontrol]
        simp only [List.append_assoc]
    · have howed : s.owed = 0 := by
        have := mt owes_iff_owed.mpr howes
        omega
      rw [howed, reach, Nat.zero_max, dealt_early]
      exact handedOut_free hserves hnum hurgent howes hfuel

theorem handedOut_eq (hserves : Serves take size) (hnum : s.Numbered) {urgent : List Bytes}
    (hurgent : s.urgent = urgent) {fuel : ℕ} (hfuel : urgent.length + s.order.length < fuel) :
    ∃ handed, handedOut take fuel s = some handed ∧ handed.flatten = urgent.flatten ++
      (s.dealt (max (reach size s.owed s.owed s.others) s.early.length)).flatMap (·.frame) := by
  induction urgent generalizing s fuel with
  | nil =>
    rw [List.flatten_nil, List.nil_append]
    exact handedOut_held hserves hnum hurgent (by simpa using hfuel) le_rfl
  | cons frame urgent ih =>
    obtain ⟨fuel, rfl⟩ : ∃ f, fuel = f + 1 := ⟨fuel - 1, by omega⟩
    rw [List.length_cons] at hfuel
    have hnum' : { s.releaseInFlight.1 with urgent := urgent }.Numbered := hnum
    have hfuel' : urgent.length + { s.releaseInFlight.1 with urgent := urgent }.order.length < fuel :=
      show urgent.length + s.order.length < fuel by omega
    obtain ⟨handed, hrun, hbytes⟩ := ih hnum' rfl hfuel'
    refine ⟨frame :: handed, ?_, ?_⟩
    · rw [handedOut, hserves.urgent s frame urgent hurgent]
      simp only [hrun, Option.map_some]
    · rw [List.flatten_cons, List.flatten_cons, hbytes, List.append_assoc]
      rfl

end Runs

theorem reach_one {turns owed : ℕ} (h : owed ≤ turns) (entries : List Entry) :
    reach (fun _ => 1) turns owed entries = owed := by
  induction turns generalizing owed entries with
  | zero => rw [reach]; omega
  | succ turns ih =>
    cases owed with
    | zero => rfl
    | succ owed =>
      rw [reach, Nat.add_sub_cancel, ih (by omega)]
      omega

theorem owedCount_le (fence : ℕ) (entries : List Entry) :
    owedCount fence entries ≤ entries.length := by
  induction entries with
  | nil => rfl
  | cons entry rest ih =>
    rw [owedCount, List.length_cons]
    split <;> omega

theorem le_reach {size : List Entry → ℕ} (hpos : ∀ entry rest, 1 ≤ size (entry :: rest))
    {turns owed : ℕ} (h : owed ≤ turns) {entries : List Entry} (hle : owed ≤ entries.length) :
    owed ≤ reach size turns owed entries := by
  induction turns generalizing owed entries with
  | zero => omega
  | succ turns ih =>
    cases owed with
    | zero => exact Nat.zero_le _
    | succ owed =>
      cases entries with
      | nil => simp at hle
      | cons entry rest =>
        have hstep := hpos entry rest
        have := @ih (owed + 1 - size (entry :: rest)) (by omega)
          ((entry :: rest).drop (size (entry :: rest))) (by rw [List.length_drop]; omega)
        rw [reach]
        omega

namespace LaneState

theorem due_le_packedDue (s : LaneState) (budget : ℕ) : s.due ≤ s.packedDue budget := by
  have := le_reach (writeSize_cons budget) (le_refl s.owed) (owedCount_le s.fence s.others)
  rw [due, packedDue]
  exact max_le_max this le_rfl

theorem dealt_eq_iff (s : LaneState) {d d' : ℕ} (hle : d ≤ d') :
    (s.dealt d').flatMap (·.frame) = (s.dealt d).flatMap (·.frame) ↔
      s.controlBytes ++ ((s.others.take d').drop d).flatMap (·.frame) =
        ((s.others.take d').drop d).flatMap (·.frame) ++ s.controlBytes := by
  have htake : s.others.take d' = s.others.take d ++ (s.others.take d').drop d := by
    conv_lhs => rw [← List.take_append_drop d (s.others.take d'), List.take_take, min_eq_left hle]
  have hdrop : s.others.drop d = (s.others.take d').drop d ++ s.others.drop d' := by
    apply List.append_cancel_left
    show s.others.take d ++ s.others.drop d = s.others.take d ++ _
    rw [List.take_append_drop, ← List.append_assoc, ← htake, List.take_append_drop]
  rw [dealt, dealt, hdrop]
  generalize (s.others.take d').drop d = between at htake
  rw [htake]
  simp only [List.flatMap_append, List.append_assoc, List.append_cancel_left_eq]
  rw [← List.append_assoc, ← List.append_assoc _ (between.flatMap _), List.append_cancel_right_eq]
  exact eq_comm

end LaneState

structure Queue where
  state : LaneState
  numbered : state.Numbered

def LaneState.frames (s : LaneState) : ℕ := s.urgent.length + s.order.length

/-- Packing makes the same wire exactly where the frames that a write carries past the control lane's
turn read the same on either side of the control lane's frames; in particular where there are none. -/
theorem packed_wire_eq_iff (q : Queue) (budget : ℕ) :
    ∃ packed single, handedOut (takeNextPacked · budget) (q.state.frames + 1) q.state = some packed ∧
      handedOut takeNext (q.state.frames + 1) q.state = some single ∧
      (packed.flatten = single.flatten ↔
        q.state.controlBytes ++ q.state.overtaking budget =
          q.state.overtaking budget ++ q.state.controlBytes) := by
  have hfuel : q.state.urgent.length + q.state.order.length < q.state.frames + 1 :=
    Nat.lt_succ_self _
  obtain ⟨packed, hpacked, hpackedBytes⟩ :=
    handedOut_eq (serves_takeNextPacked budget) q.numbered rfl hfuel
  obtain ⟨single, hsingle, hsingleBytes⟩ := handedOut_eq serves_takeNext q.numbered rfl hfuel
  refine ⟨packed, single, hpacked, hsingle, ?_⟩
  rw [hpackedBytes, hsingleBytes, List.append_cancel_left_eq, reach_one le_rfl]
  exact q.state.dealt_eq_iff (q.state.due_le_packedDue budget)

/-- A data frame owed to the fence and one behind it, packed, leave before the control frame. -/
def fenced : Queue where
  state := {
    urgent := []
    lanes := fun lane => if lane.val = 0 then [⟨.control, [1], 1⟩]
      else if lane.val = 5 then [⟨.data, [2], 0⟩, ⟨.data, [3], 2⟩] else []
    singleLane := false
    occupied := fun lane => if lane.val = 0 then 1 else if lane.val = 5 then 2 else 0
    congested := fun _ => false
    inFlight := fun _ => none
    nextSeq := 3
    fence := 2 }
  numbered := by
    unfold LaneState.Numbered
    decide

theorem packed_wire_ne :
    (handedOut (takeNextPacked · 8) (fenced.state.frames + 1) fenced.state).map List.flatten =
        some [2, 3, 1] ∧
      (handedOut takeNext (fenced.state.frames + 1) fenced.state).map List.flatten =
        some [2, 1, 3] := by
  decide +kernel

end WatchingZenoh.WriterQueue
