import WatchingZenoh.WriterQueue
import WatchingZenoh.Library.StrictPriority

/-! What a take does to the lanes: it serves the first frame of the lanes whose turn it is, or the
frames that fit one write. The lanes in turn are all of them, or all but the control lane while the
fence holds it. -/

namespace WatchingZenoh.WriterQueue

open StrictPriority

namespace LaneState

variable (s : LaneState)

def lows : List Lane := (List.finRange 8).filter (· < s.controlLane)

def highs : List Lane := (List.finRange 8).filter (s.controlLane < ·)

def early : List Entry := waiting s.lows s.lanes

def late : List Entry := waiting s.highs s.lanes

/-- What waits on the lanes other than the control lane, in the order they are served. -/
def others : List Entry := s.early ++ s.late

def Numbered : Prop := ∀ lane, (s.lanes lane).Pairwise fun e e' => e.seq < e'.seq

def Owes : Prop := ∃ entry ∈ s.others, entry.seq < s.fence

instance instDecidableOwes : Decidable s.Owes := inferInstanceAs (Decidable (∃ _ ∈ _, _))

def turn : List Lane := if s.Owes then s.lows ++ s.highs else List.finRange 8

theorem finRange_eq (c : Lane) : List.finRange 8 =
    (List.finRange 8).filter (· < c) ++ c :: (List.finRange 8).filter (c < ·) := by
  revert c
  decide

theorem finRange_eq_lows : List.finRange 8 = s.lows ++ s.controlLane :: s.highs := finRange_eq _

theorem nodup_others : (s.lows ++ s.highs).Nodup := by
  have h := List.nodup_finRange 8
  rw [s.finRange_eq_lows] at h
  exact (List.nodup_middle.mp h).of_cons

theorem mem_others_iff {lane : Lane} : lane ∈ s.lows ++ s.highs ↔ lane ≠ s.controlLane := by
  simp only [lows, highs, List.mem_append, List.mem_filter, List.mem_finRange, true_and,
    decide_eq_true_eq]
  exact lt_or_lt_iff_ne

theorem nodup_turn : s.turn.Nodup := by
  rw [turn]
  split
  · exact s.nodup_others
  · exact List.nodup_finRange 8

variable {s}

theorem mem_others {entry : Entry} :
    entry ∈ s.others ↔ ∃ lane, lane ≠ s.controlLane ∧ entry ∈ s.lanes lane := by
  rw [others, early, late, ← waiting_append]
  simp only [waiting, List.mem_flatMap, s.mem_others_iff]

/-- A lane's first entry is its oldest, so that the fence is asked of it alone. -/
theorem owes_iff (hnum : s.Numbered) : s.Owes ↔ ∃ lane, lane ≠ s.controlLane ∧
    (s.lanes lane).head?.any fun entry => entry.seq < s.fence := by
  constructor
  · rintro ⟨entry, hmem, hlt⟩
    obtain ⟨lane, hlane, hentry⟩ := mem_others.mp hmem
    refine ⟨lane, hlane, ?_⟩
    have hsorted := hnum lane
    cases hl : s.lanes lane with
    | nil => simp [hl] at hentry
    | cons first rest =>
      rw [hl] at hentry hsorted
      simp only [List.head?_cons, Option.any_some, decide_eq_true_eq]
      rcases List.mem_cons.mp hentry with rfl | hrest
      · exact hlt
      · exact ((List.pairwise_cons.mp hsorted).1 entry hrest).trans hlt
  · rintro ⟨lane, hlane, hany⟩
    cases hl : s.lanes lane with
    | nil => simp [hl] at hany
    | cons first rest =>
      rw [hl] at hany
      exact ⟨first, mem_others.mpr ⟨lane, hlane, by simp [hl]⟩, by simpa using hany⟩

theorem controlHeldByFence_eq (hnum : s.Numbered) :
    s.controlHeldByFence = (if s.Owes then s else { s with fence := 0 }, decide s.Owes) := by
  rw [controlHeldByFence]
  by_cases hfence : s.fence = 0
  · have hnot : ¬ s.Owes := by
      rintro ⟨entry, -, hlt⟩
      omega
    have hsame : { s with fence := 0 } = s := by rw [← hfence]
    rw [if_pos hfence, if_neg hnot, decide_eq_false hnot, hsame]
  · rw [if_neg hfence]
    simp only [← owes_iff hnum]
    by_cases howes : s.Owes <;> simp [howes]

/-- The bytes of the entries a lane gave up, or none. -/
def tally (queued left : List Entry) : Option ℕ :=
  if queued.length = left.length then none
  else some ((queued.take (queued.length - left.length)).map (·.frame.length)).sum

theorem tally_self (queued : List Entry) : tally queued queued = none := if_pos rfl

variable (s) in
/-- The state a take searches: the bytes in flight released, and a passed fence dropped. -/
def asked : LaneState :=
  { s.releaseInFlight.1 with fence := if s.Owes then s.fence else 0 }

variable (s) in
/-- The state once the first `n` frames in turn are the writer's. -/
def served (n : ℕ) : LaneState := { s.asked with
  lanes := serve s.turn n s.lanes
  inFlight := fun lane => tally (s.lanes lane) (serve s.turn n s.lanes lane) }

theorem controlHeldByFence_release (hnum : s.Numbered) :
    s.releaseInFlight.1.controlHeldByFence = (s.asked, decide s.Owes) := by
  rw [controlHeldByFence_eq (s := s.releaseInFlight.1) hnum]
  have howes : s.releaseInFlight.1.Owes ↔ s.Owes := Iff.rfl
  by_cases h : s.Owes
  · simp only [howes, h, if_true, asked]
    rfl
  · simp only [howes, h, if_false, asked]

theorem served_zero : s.served 0 = s.asked := by
  simp only [served, serve_zero, tally_self]
  rfl

theorem findSome_takeFrom {order : List Lane} (hnodup : order.Nodup) :
    (waiting order s.lanes = [] → order.findSome? s.takeFrom = none) ∧
    ∀ entry rest, waiting order s.lanes = entry :: rest → ∃ lane tail,
      s.lanes lane = entry :: tail ∧ serve order 1 s.lanes = Function.update s.lanes lane tail ∧
      order.findSome? s.takeFrom = some (entry, { s with
        lanes := Function.update s.lanes lane tail
        inFlight := Function.update s.inFlight lane (some entry.frame.length) }) := by
  induction order with
  | nil => simp
  | cons first order ih =>
    obtain ⟨hnot, hnodup⟩ := List.nodup_cons.mp hnodup
    obtain ⟨ihnone, ihsome⟩ := ih hnodup
    cases hl : s.lanes first with
    | nil =>
      have hskip : s.takeFrom first = none := by simp [takeFrom, hl]
      have hserve : serve (first :: order) 1 s.lanes = serve order 1 s.lanes := by
        rw [serve, hl, List.drop_nil, ← hl, Function.update_eq_self, hl]
        rfl
      rw [waiting_cons, hl, List.nil_append, List.findSome?_cons, hskip, hserve]
      exact ⟨ihnone, ihsome⟩
    | cons entry tail =>
      rw [waiting_cons, hl]
      refine ⟨by simp, fun e rest heq => ?_⟩
      obtain ⟨rfl, -⟩ := List.cons_eq_cons.mp heq
      refine ⟨first, tail, hl, ?_, ?_⟩
      · rw [serve, hl]
        simp [serve_zero]
      · rw [List.findSome?_cons]
        simp [takeFrom, hl]

theorem findSome_turn {β : Type*} (f : Lane → Option β) :
    ((List.finRange 8).findSome? fun lane => if s.Owes ∧ lane = s.controlLane then none else f lane) =
      s.turn.findSome? f := by
  by_cases howes : s.Owes
  · have hagree : ∀ ls : List Lane, (∀ lane ∈ ls, lane ≠ s.controlLane) →
        (ls.findSome? fun lane => if s.Owes ∧ lane = s.controlLane then none else f lane) =
          ls.findSome? f := by
      intro ls hls
      induction ls with
      | nil => rfl
      | cons lane ls ih =>
        obtain ⟨hlane, hls⟩ := List.forall_mem_cons.mp hls
        rw [List.findSome?_cons, List.findSome?_cons, if_neg fun h => hlane h.2, ih hls]
    rw [turn, if_pos howes, s.finRange_eq_lows, List.findSome?_append, List.findSome?_cons,
      if_pos ⟨howes, rfl⟩, List.findSome?_append]
    simp only
    rw [hagree s.lows fun lane hlane => s.mem_others_iff.mp (List.mem_append_left _ hlane),
      hagree s.highs fun lane hlane => s.mem_others_iff.mp (List.mem_append_right _ hlane)]
  · simp [turn, howes]

theorem takeUrgent_release (hurgent : s.urgent = []) : s.releaseInFlight.1.takeUrgent = none := by
  rw [takeUrgent, releaseInFlight]
  simp [hurgent]

theorem takeNext_empty (hnum : s.Numbered) (hurgent : s.urgent = [])
    (hnone : waiting s.turn s.lanes = []) :
    s.takeNext = (.empty, s.releaseInFlight.2, s.served 0) := by
  have hfound := (findSome_turn s.asked.takeFrom).trans
    ((findSome_takeFrom (s := s.asked) s.nodup_turn).1 hnone)
  unfold takeNext
  simp only [takeUrgent_release hurgent, controlHeldByFence_release hnum, decide_eq_true_eq,
    served_zero]
  rw [show s.asked.controlLane = s.controlLane from rfl, hfound]

theorem takeNext_cons (hnum : s.Numbered) (hurgent : s.urgent = []) {entry : Entry}
    {rest : List Entry} (hfirst : waiting s.turn s.lanes = entry :: rest) :
    s.takeNext = (.frame entry.priority entry.frame, s.releaseInFlight.2, s.served 1) := by
  obtain ⟨lane, tail, hlane, hserve, hfind⟩ :=
    (findSome_takeFrom (s := s.asked) s.nodup_turn).2 entry rest hfirst
  have hfound := (findSome_turn s.asked.takeFrom).trans hfind
  have hserved : s.served 1 = { s.asked with
      lanes := Function.update s.lanes lane tail
      inFlight := Function.update s.asked.inFlight lane (some entry.frame.length) } := by
    have hflight : (fun l => tally (s.lanes l) (serve s.turn 1 s.lanes l)) =
        Function.update s.asked.inFlight lane (some entry.frame.length) := by
      funext l
      rw [show serve s.turn 1 s.lanes = Function.update s.lanes lane tail from hserve]
      by_cases hl : l = lane
      · subst hl
        rw [Function.update_self, Function.update_self, show s.lanes l = entry :: tail from hlane]
        simp [tally]
      · rw [Function.update_of_ne hl, Function.update_of_ne hl, tally_self]
        rfl
    rw [served, hflight, show serve s.turn 1 s.lanes = Function.update s.lanes lane tail from hserve]
  unfold takeNext
  simp only [takeUrgent_release hurgent, controlHeldByFence_release hnum, decide_eq_true_eq]
  rw [show s.asked.controlLane = s.controlLane from rfl, hfound, hserved]
  rfl

end LaneState

end WatchingZenoh.WriterQueue
