import WatchingZenoh.WriterQueueOrder

/-! How long a fence holds a control frame back. Data queued behind the fence is served before a frame
the fence waits for when its lane comes first, and the control frame then waits for it too; where no
such frame is sent, only frames queued before the fence leave ahead of the control frame. -/

namespace WatchingZenoh.WriterQueue

open StrictPriority

inductive Op
  | send (priority : Priority) (frame : Bytes)
  | sendUrgent (frame : Bytes)
  | takeNext
  | takeNextPacked (budget : ℕ)
  | takeUrgentOnly
  | reshape (qos : Bool)
  | fence

namespace LaneState

def new (singleLane : Bool) : LaneState where
  urgent := []
  lanes := fun _ => []
  singleLane := singleLane
  occupied := fun _ => 0
  congested := fun _ => false
  inFlight := fun _ => none
  nextSeq := 0
  fence := 0

def sendUrgent (s : LaneState) (frame : Bytes) : LaneState := { s with urgent := s.urgent ++ [frame] }

def act (s : LaneState) : Op → LaneState
  | .send priority frame => s.enqueue priority frame
  | .sendUrgent frame => s.sendUrgent frame
  | .takeNext => s.takeNext.2.2
  | .takeNextPacked budget => (s.takeNextPacked budget).2.2
  | .takeUrgentOnly => s.takeUrgentOnly.2.2
  | .reshape qos => s.reshape qos
  | .fence => s.raiseFence

/-- No frame the fence waits for is on a lane behind that of the priority. -/
def Spares (s : LaneState) (priority : Priority) : Prop :=
  s.laneOf priority ≠ s.controlLane → ∀ lane, s.laneOf priority < lane → lane ≠ s.controlLane →
    ∀ entry ∈ s.lanes lane, s.fence ≤ entry.seq

instance instDecidableSpares (s : LaneState) (priority : Priority) :
    Decidable (s.Spares priority) := by
  unfold Spares
  infer_instance

/-- The numbers of a queue: each lane's go up, and all are below the next. -/
structure Kept (s : LaneState) : Prop where
  numbered : s.Numbered
  below : ∀ lane, ∀ entry ∈ s.lanes lane, entry.seq < s.nextSeq

variable {s : LaneState}

theorem Kept.sub (h : s.Kept) {t : LaneState} (hlanes : ∀ lane, t.lanes lane <:+ s.lanes lane)
    (hnext : t.nextSeq = s.nextSeq) : t.Kept where
  numbered := fun lane => (h.numbered lane).sublist (hlanes lane).sublist
  below := fun lane entry hentry => hnext ▸ h.below lane entry ((hlanes lane).subset hentry)

theorem mem_enqueue {priority : Priority} {frame : Bytes} {lane : Lane} {entry : Entry}
    (h : entry ∈ (s.enqueue priority frame).lanes lane) :
    entry ∈ s.lanes lane ∨ lane = s.laneOf priority ∧ entry.seq = s.nextSeq := by
  by_cases hlane : lane = s.laneOf priority
  · subst hlane
    rw [enqueue] at h
    simp only [Function.update_self, List.mem_append, List.mem_singleton] at h
    rcases h with h | rfl
    · exact .inl h
    · exact .inr ⟨rfl, rfl⟩
  · rw [enqueue] at h
    simp only [Function.update_of_ne hlane] at h
    exact .inl h

theorem Kept.enqueue (h : s.Kept) (priority : Priority) (frame : Bytes) :
    (s.enqueue priority frame).Kept where
  numbered := fun lane => by
    by_cases hlane : lane = s.laneOf priority
    · subst hlane
      rw [LaneState.enqueue]
      simp only [Function.update_self]
      refine List.pairwise_append.mpr ⟨h.numbered _, List.pairwise_singleton _ _, ?_⟩
      intro entry hentry entry' hentry'
      rw [List.mem_singleton.mp hentry']
      exact h.below _ entry hentry
    · rw [LaneState.enqueue]
      simp only [Function.update_of_ne hlane]
      exact h.numbered lane
  below := fun lane entry hentry => by
    have hlt : entry.seq < s.nextSeq + 1 := by
      rcases mem_enqueue hentry with hold | ⟨-, hseq⟩
      · exact (h.below lane entry hold).trans (Nat.lt_succ_self _)
      · omega
    exact hlt

end LaneState

open LaneState

variable {s : LaneState}

theorem Serves.result {take : LaneState → Taken × Bool × LaneState} {size : List Entry → ℕ}
    (h : Serves take size) (hnum : s.Numbered) :
    (∃ frame rest, s.urgent = frame :: rest ∧
      (take s).2.2 = { s.releaseInFlight.1 with urgent := rest }) ∨
    (s.urgent = [] ∧ ∃ n, (take s).2.2 = s.served n ∧
      ∀ entry rest, waiting s.turn s.lanes = entry :: rest → n = size (entry :: rest)) := by
  cases hurgent : s.urgent with
  | cons frame rest =>
    refine .inl ⟨frame, rest, rfl, ?_⟩
    rw [h.urgent s frame rest hurgent]
  | nil =>
    refine .inr ⟨rfl, ?_⟩
    cases hwait : waiting s.turn s.lanes with
    | nil => exact ⟨0, by rw [h.none s hnum hurgent hwait], by simp⟩
    | cons entry rest =>
      refine ⟨size (entry :: rest), by rw [h.some s hnum hurgent entry rest hwait], ?_⟩
      rintro entry' rest' heq
      rw [heq]

theorem Serves.kept {take : LaneState → Taken × Bool × LaneState} {size : List Entry → ℕ}
    (h : Serves take size) (hs : s.Kept) : (take s).2.2.Kept := by
  rcases h.result hs.numbered with ⟨frame, rest, -, heq⟩ | ⟨-, n, heq, -⟩
  · rw [heq]
    exact hs.sub (fun _ => List.suffix_rfl) rfl
  · rw [heq]
    exact hs.sub (fun lane => serve_suffix _ _ _ _) rfl

namespace LaneState

theorem Kept.act (h : s.Kept) (op : Op) : (s.act op).Kept := by
  cases op with
  | send priority frame => exact h.enqueue priority frame
  | sendUrgent frame => exact h.sub (fun _ => List.suffix_rfl) rfl
  | takeNext => exact serves_takeNext.kept h
  | takeNextPacked budget => exact (serves_takeNextPacked budget).kept h
  | takeUrgentOnly =>
    have hlanes : (s.act .takeUrgentOnly).lanes = s.lanes ∧
        (s.act .takeUrgentOnly).nextSeq = s.nextSeq := by
      cases hurgent : s.urgent <;>
        simp [LaneState.act, LaneState.takeUrgentOnly, takeUrgent, releaseInFlight, hurgent]
    exact h.sub (fun _ => by rw [hlanes.1]) hlanes.2
  | reshape qos => exact h.sub (fun _ => List.suffix_rfl) rfl
  | fence => exact h.sub (fun _ => List.suffix_rfl) rfl

theorem kept_new (singleLane : Bool) : (new singleLane).Kept :=
  ⟨fun _ => List.Pairwise.nil, fun _ _ hentry => by simp [new] at hentry⟩

end LaneState

/-- The queue while a control frame waits behind a fence: frames are sent, none ahead of one the
fence waits for, and taken, none of them off the control lane. -/
inductive Awaits (start : LaneState) : LaneState → Prop
  | raised : Awaits start start
  | send {s : LaneState} (h : Awaits start s) (priority : Priority) (frame : Bytes)
      (hspares : s.Spares priority) : Awaits start (s.act (.send priority frame))
  | sendUrgent {s : LaneState} (h : Awaits start s) (frame : Bytes) :
      Awaits start (s.act (.sendUrgent frame))
  | takeNext {s : LaneState} (h : Awaits start s)
      (hwaits : (s.act .takeNext).lanes s.controlLane = s.lanes s.controlLane) :
      Awaits start (s.act .takeNext)

/-- What holds while a control frame waits behind a fence. -/
structure Holding (start s : LaneState) : Prop where
  kept : s.Kept
  fence : s.fence = start.nextSeq
  le : start.nextSeq ≤ s.nextSeq
  waits : s.lanes s.controlLane ≠ []
  /-- Where the lanes are one, the others are what an earlier shape left on them. -/
  lone : s.singleLane = true → ∀ lane, lane ≠ s.controlLane →
    ∀ entry ∈ s.lanes lane, entry.seq < start.nextSeq
  older : ∀ lane, ∀ entry ∈ s.lanes lane, entry.seq < start.nextSeq → entry ∈ start.lanes lane
  /-- Behind a lane with a frame queued behind the fence there is none the fence waits for. -/
  settled : ∀ low high, low < high → low ≠ s.controlLane → high ≠ s.controlLane →
    ∀ entry ∈ s.lanes low, start.nextSeq ≤ entry.seq →
      ∀ entry' ∈ s.lanes high, start.nextSeq ≤ entry'.seq

variable {start : LaneState}

theorem holding_raised (h : start.Kept) (hwaits : start.lanes start.controlLane ≠ []) :
    Holding start start.raiseFence where
  kept := h.act .fence
  fence := rfl
  le := le_rfl
  waits := hwaits
  lone := fun _ lane _ entry hentry => h.below lane entry hentry
  older := fun _ _ hentry _ => hentry
  settled := fun low _ _ _ _ entry hentry hle =>
    absurd (h.below low entry hentry) (Nat.not_lt.mpr hle)

theorem Holding.send (h : Holding start s) {priority : Priority} (hspares : s.Spares priority)
    (frame : Bytes) : Holding start (s.act (.send priority frame)) where
  kept := h.kept.act _
  fence := h.fence
  le := h.le.trans (Nat.le_succ _)
  waits := fun hnil => h.waits <| by
    have hsub : s.lanes s.controlLane <+: (s.enqueue priority frame).lanes s.controlLane := by
      rw [enqueue]
      by_cases hlane : s.controlLane = s.laneOf priority
      · simp [hlane]
      · simp [Function.update_of_ne hlane]
    exact List.prefix_nil.mp (hnil ▸ hsub)
  lone := fun hsingle lane hlane entry hentry => by
    have hsingle' : s.singleLane = true := hsingle
    have hcontrol : s.laneOf priority = s.controlLane := by simp [controlLane, laneOf, hsingle']
    rcases mem_enqueue hentry with hold | ⟨hat, -⟩
    · exact h.lone hsingle' lane hlane entry hold
    · exact absurd (hat.trans hcontrol) hlane
  older := fun lane entry hentry hlt => by
    rcases mem_enqueue hentry with hold | ⟨-, hseq⟩
    · exact h.older lane entry hold hlt
    · have := h.le
      omega
  settled := fun low high hlow hlc hhc entry hentry hle entry' hentry' => by
    rcases mem_enqueue hentry' with hold' | ⟨-, hseq'⟩
    · rcases mem_enqueue hentry with hold | ⟨rfl, -⟩
      · exact h.settled low high hlow hlc hhc entry hold hle entry' hold'
      · exact h.fence ▸ hspares hlc high hlow hhc entry' hold'
    · have := h.le
      omega

/-- The other lanes are served in their order. -/
theorem pairwise_others (s : LaneState) : (s.lows ++ s.highs).Pairwise (· < ·) := by
  have h : ∀ c : Lane, ((List.finRange 8).filter (· < c) ++ (List.finRange 8).filter (c < ·)).Pairwise
      (· < ·) := by decide
  exact h _

theorem Holding.take_owed (h : Holding start s) (howes : s.Owes) :
    ∃ lane entry tail, lane ≠ s.controlLane ∧ s.lanes lane = entry :: tail ∧
      entry.seq < start.nextSeq ∧ (s.served 1).lanes = Function.update s.lanes lane tail := by
  obtain ⟨owed, hmem, hlt⟩ := howes
  obtain ⟨at_, hne, hat⟩ := mem_others.mp hmem
  have howes : s.Owes := ⟨owed, hmem, hlt⟩
  have hturn := turn_of_owes howes
  have hothers : waiting s.turn s.lanes = s.others := by
    rw [hturn, waiting_append]
    rfl
  obtain ⟨first, rest, hcons⟩ := List.exists_cons_of_ne_nil (List.ne_nil_of_mem hmem)
  obtain ⟨before, lane, behind, tail, horder, hempty, hlane⟩ :=
    waiting_eq_cons (hothers.trans hcons)
  rw [hturn] at horder
  have hserved : (s.served 1).lanes = Function.update s.lanes lane tail := by
    have hone : serve (before ++ lane :: behind) 1 s.lanes = Function.update s.lanes lane tail :=
      serve_one hempty hlane
    rw [← horder, ← hturn] at hone
    exact hone
  have hlaneNe : lane ≠ s.controlLane := s.mem_others_iff.mp (by rw [horder]; simp)
  refine ⟨lane, first, tail, hlaneNe, hlane, ?_, hserved⟩
  by_contra hlate
  rw [Nat.not_lt] at hlate
  -- The owed frame is on this lane or behind it, and there nothing is owed.
  have hplace : at_ ∈ before ++ lane :: behind := horder ▸ s.mem_others_iff.mpr hne
  rw [h.fence] at hlt
  rcases List.mem_append.mp hplace with hbefore | hbehind
  · have hnil := waiting_eq_nil_iff.mp hempty at_ hbefore
    rw [hnil] at hat
    simp at hat
  · rcases List.mem_cons.mp hbehind with rfl | hbehind
    · have hsorted := h.kept.numbered at_
      rw [hlane] at hsorted hat
      rcases List.mem_cons.mp hat with rfl | htail
      · omega
      · have := (List.pairwise_cons.mp hsorted).1 owed htail
        omega
    · have hsorted := pairwise_others s
      rw [horder] at hsorted
      have hlow : lane < at_ := (List.pairwise_cons.mp (List.pairwise_append.mp hsorted).2.1).1 at_
        hbehind
      have hle := h.settled lane at_ hlow hlaneNe hne first (by rw [hlane]; simp) hlate owed hat
      omega

theorem Holding.take_control (h : Holding start s) (hfree : ¬ s.Owes) :
    ∃ entry tail, s.lanes s.controlLane = entry :: tail ∧
      (s.served 1).lanes = Function.update s.lanes s.controlLane tail ∧
      ∃ rest, waiting s.turn s.lanes = entry :: rest := by
  obtain ⟨entry, tail, hcons⟩ := List.exists_cons_of_ne_nil h.waits
  have hearly : waiting s.lows s.lanes = [] := by
    rw [waiting_eq_nil_iff]
    intro lane hlane
    have hne := s.mem_others_iff.mp (List.mem_append_left _ hlane)
    by_cases hsingle : s.singleLane = true
    · refine List.eq_nil_iff_forall_not_mem.mpr fun entry' hentry' => hfree ?_
      exact ⟨entry', mem_others.mpr ⟨lane, hne, hentry'⟩, h.fence ▸ h.lone hsingle lane hne entry' hentry'⟩
    · have hzero : s.controlLane = 0 := by simp [controlLane, laneOf, hsingle, Priority.wireByte]
      rw [lows, hzero] at hlane
      simp at hlane
  have hturn := turn_of_free hfree
  refine ⟨entry, tail, hcons, ?_, ?_⟩
  · have hone : serve (s.lows ++ s.controlLane :: s.highs) 1 s.lanes =
        Function.update s.lanes s.controlLane tail := serve_one hearly hcons
    rw [← s.finRange_eq_lows, ← hturn] at hone
    exact hone
  · rw [hturn, s.finRange_eq_lows, waiting_append, hearly, waiting_cons, hcons]
    exact ⟨_, rfl⟩

/-- A take while a control frame waits: a keepalive, the control frame, or one queued before the
fence. -/
theorem Holding.takes (h : Holding start s) :
    (s.act .takeNext).lanes = s.lanes ∧ (s.act .takeNext).fence = s.fence ∨
    (∃ entry tail, s.lanes s.controlLane = entry :: tail ∧
      (s.act .takeNext).lanes = Function.update s.lanes s.controlLane tail) ∨
    ∃ lane entry tail, lane ≠ s.controlLane ∧ s.lanes lane = entry :: tail ∧
      entry.seq < start.nextSeq ∧ (s.act .takeNext).lanes = Function.update s.lanes lane tail ∧
      (s.act .takeNext).fence = s.fence := by
  rcases serves_takeNext.result h.kept.numbered with ⟨frame, rest, -, heq⟩ | ⟨-, n, heq, hone⟩
  · left
    rw [LaneState.act, heq]
    exact ⟨rfl, rfl⟩
  · right
    by_cases howes : s.Owes
    · right
      obtain ⟨lane, entry, tail, hne, hlane, hlt, hserved⟩ := h.take_owed howes
      obtain ⟨first, rest, hwait⟩ : ∃ first rest, waiting s.turn s.lanes = first :: rest := by
        refine List.exists_cons_of_ne_nil fun hnil => ?_
        rw [turn_of_owes howes] at hnil
        have hempty := waiting_eq_nil_iff.mp hnil lane (s.mem_others_iff.mpr hne)
        simp [hlane] at hempty
      rw [hone first rest hwait] at heq
      rw [LaneState.act, heq]
      exact ⟨lane, entry, tail, hne, hlane, hlt, hserved, if_pos howes⟩
    · left
      obtain ⟨entry, tail, hlane, hserved, rest, hwait⟩ := h.take_control howes
      rw [hone entry rest hwait] at heq
      rw [LaneState.act, heq]
      exact ⟨entry, tail, hlane, hserved⟩

theorem Holding.take (h : Holding start s)
    (hwaits : (s.act .takeNext).lanes s.controlLane = s.lanes s.controlLane) :
    Holding start (s.act .takeNext) := by
  have hkept := h.kept.act .takeNext
  have hsame : (s.act .takeNext).controlLane = s.controlLane ∧
      (s.act .takeNext).nextSeq = s.nextSeq ∧ (s.act .takeNext).singleLane = s.singleLane := by
    rcases serves_takeNext.result h.kept.numbered with ⟨frame, rest, -, heq⟩ | ⟨-, n, heq, -⟩ <;>
    · rw [LaneState.act, heq]
      exact ⟨rfl, rfl, rfl⟩
  have hsub : (s.act .takeNext).fence = s.fence ∧
      ∀ lane, (s.act .takeNext).lanes lane <:+ s.lanes lane := by
    rcases h.takes with ⟨hlanes, hfence⟩ | ⟨entry, tail, hlane, hlanes⟩ |
      ⟨at_, entry, tail, -, hlane, -, hlanes, hfence⟩
    · exact ⟨hfence, fun lane => by rw [hlanes]⟩
    · rw [hlanes, Function.update_self, hlane] at hwaits
      simp at hwaits
    · refine ⟨hfence, fun lane => ?_⟩
      rw [hlanes]
      by_cases hat : lane = at_
      · subst hat
        rw [Function.update_self, hlane]
        exact List.suffix_cons _ _
      · rw [Function.update_of_ne hat]
  exact
    { kept := hkept
      fence := hsub.1.trans h.fence
      le := hsame.2.1 ▸ h.le
      waits := by rw [hsame.1, hwaits]; exact h.waits
      lone := fun hsingle lane hlane entry hentry => by
        rw [hsame.1] at hlane
        exact h.lone (hsame.2.2 ▸ hsingle) lane hlane entry ((hsub.2 lane).subset hentry)
      older := fun lane entry hentry => h.older lane entry ((hsub.2 lane).subset hentry)
      settled := fun low high hlow hlc hhc entry hentry hle entry' hentry' => by
        rw [hsame.1] at hlc hhc
        exact h.settled low high hlow hlc hhc entry ((hsub.2 low).subset hentry) hle entry'
          ((hsub.2 high).subset hentry') }

theorem Awaits.holding (h : Awaits start.raiseFence s) (hkept : start.Kept)
    (hwaits : start.lanes start.controlLane ≠ []) : Holding start s := by
  induction h with
  | raised => exact holding_raised hkept hwaits
  | send _ priority frame hspares ih => exact ih.send hspares frame
  | sendUrgent _ frame ih => exact { ih with kept := ih.kept.act (.sendUrgent frame) }
  | takeNext _ hkeeps ih => exact ih.take hkeeps

/-- In every queue a fence is raised over with a control frame waiting, as long as nothing is sent
ahead of a frame the fence waits for: each frame another lane gives up before the control frame was
on it when the fence was raised. -/
theorem fence_waits_for_queued (singleLane : Bool) (ops : List Op)
    (hwaits : (ops.foldl act (new singleLane)).lanes
      (ops.foldl act (new singleLane)).controlLane ≠ [])
    (hawaits : Awaits (ops.foldl act (new singleLane)).raiseFence s) :
    ∀ lane, lane ≠ s.controlLane → ∀ entry rest, s.lanes lane = entry :: rest →
      (s.act .takeNext).lanes lane = rest →
      entry ∈ (ops.foldl act (new singleLane)).lanes lane := by
  have hkept : (ops.foldl act (new singleLane)).Kept :=
    List.foldlRecOn ops act (kept_new singleLane) fun _ h op _ => h.act op
  have hholding := hawaits.holding hkept hwaits
  intro lane hne entry rest hlane htaken
  rcases hholding.takes with ⟨hlanes, -⟩ | ⟨first, tail, hcontrol, hlanes⟩ |
    ⟨at_, first, tail, -, hat, hlt, hlanes, -⟩
  · rw [hlanes, hlane] at htaken
    simp at htaken
  · rw [hlanes, Function.update_of_ne hne, hlane] at htaken
    simp at htaken
  · by_cases heq : lane = at_
    · subst heq
      rw [hlane] at hat
      cases hat
      exact hholding.older lane entry (by rw [hlane]; simp) hlt
    · rw [hlanes, Function.update_of_ne heq, hlane] at htaken
      simp at htaken

def after (ops : List Op) : LaneState := ops.foldl act (new false)

theorem fence_waits_for_queued_data :
    (⟨.data, [2], 0⟩ : Entry) ∈ (after [.send .data [2], .send .control [1]]).lanes 5 :=
  fence_waits_for_queued false [.send .data [2], .send .control [1]]
    (s := (after [.send .data [2], .send .control [1]]).raiseFence.act (.send .data [3]))
    (by decide) (.send .raised .data [3] (by decide)) 5 (by decide) ⟨.data, [2], 0⟩
    [⟨.data, [3], 2⟩] (by decide) (by decide +kernel)

/-- A frame sent behind the fence is taken before the control frame that waits. -/
theorem fence_waits_for_later :
    (after [.send .background [2], .send .control [1]]).lanes 0 = [⟨.control, [1], 1⟩] ∧
      (after [.send .background [2], .send .control [1]]).lanes 1 = [] ∧
      (after [.send .background [2], .send .control [1], .fence, .send .realTime [3]]).lanes 1 =
        [⟨.realTime, [3], 2⟩] ∧
      (after [.send .background [2], .send .control [1], .fence, .send .realTime [3],
        .takeNext]).lanes 1 = [] ∧
      (after [.send .background [2], .send .control [1], .fence, .send .realTime [3],
        .takeNext]).lanes 0 = [⟨.control, [1], 1⟩] := by
  decide +kernel

end WatchingZenoh.WriterQueue
