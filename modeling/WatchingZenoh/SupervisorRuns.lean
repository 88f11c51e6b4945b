import Mathlib
import WatchingZenoh.Supervisor
import WatchingZenoh.Library.Steps

/-! What the supervisor reports, over every run of calls. Time is unbounded and the code sees it
modulo `2^32`; a check at least once in `2^31` ticks keeps the two apart by less than a turn. A feed
that comes after the deadline and before a check starts the deadline over, and a stop that comes there
ends the watch, so that either hides the deadline that was missed. -/

namespace WatchingZenoh.Supervisor

/-- What is known of a checkpoint from the calls made: not watched, watched since an instant, fed or
stopped after its deadline, reported with its hook running, and reported with its hook done. -/
inductive Watch
  | idle
  | running (since timeout : ℕ)
  | overdue (timeout : ℕ)
  | reporting (timeout : ℕ)
  | reported (timeout : ℕ)
  deriving DecidableEq, Repr

namespace Watch

/-- Whether the deadline has passed without a report. -/
def due (t : ℕ) : Watch → Bool
  | running since timeout => decide (since + timeout ≤ t)
  | overdue _ => true
  | _ => false

/-- Whether the deadline was missed and reported, and the checkpoint has not come back since. -/
def down : Watch → Bool
  | reporting _ => true
  | reported _ => true
  | _ => false

def started (t timeout : ℕ) : Watch → Watch
  | idle => running t timeout
  | w => w

def fed (afterExpiry : AfterExpiry) (t : ℕ) : Watch → Watch
  | running since timeout => if since + timeout ≤ t then overdue timeout else running t timeout
  | reported timeout => if afterExpiry = .rearm then running t timeout else reported timeout
  | w => w

def stopped (t : ℕ) : Watch → Watch
  | running since timeout => if since + timeout ≤ t then overdue timeout else idle
  | overdue timeout => overdue timeout
  | reporting timeout => reporting timeout
  | _ => idle

def checked (t : ℕ) : Watch → Watch
  | running since timeout => if since + timeout ≤ t then reporting timeout else running since timeout
  | overdue timeout => reporting timeout
  | w => w

def hooked : Watch → Watch
  | reporting timeout => reported timeout
  | w => w

end Watch

def InRange (timeout : UInt32) : Prop := timeout ≠ 0 ∧ timeout.toNat ≤ maxTimeoutTicks

instance decidableInRange (timeout : UInt32) : Decidable (InRange timeout) :=
  inferInstanceAs (Decidable (_ ∧ _))

def Watch.step (afterExpiry : AfterExpiry) (i : ℕ) (w : Watch) (call : ℕ × Op) : Watch :=
  match call.2 with
  | .start index timeout => if index = i ∧ InRange timeout then w.started call.1 timeout.toNat else w
  | .feed index => if index = i then w.fed afterExpiry call.1 else w
  | .stop index => if index = i then w.stopped call.1 else w
  | .check => w.checked call.1
  | .hookDone index => if index = i then w.hooked else w

def watchOf (afterExpiry : AfterExpiry) (i : ℕ) (calls : List (ℕ × Op)) : Watch :=
  calls.foldl (Watch.step afterExpiry i) .idle

/-- Instants that do not decrease, with a check at most `2^31` ticks after the last one. -/
def Timed (last now : ℕ) : List (ℕ × Op) → Prop
  | [] => True
  | (t, op) :: calls => now ≤ t ∧ (op = .check → t ≤ last + 2 ^ 31) ∧
    Timed (if op = .check then t else last) t calls

instance decidableTimed (last now : ℕ) (calls : List (ℕ × Op)) : Decidable (Timed last now calls) :=
  match calls with
  | [] => isTrue trivial
  | (t, op) :: calls =>
    have := decidableTimed (if op = .check then t else last) t calls
    inferInstanceAs (Decidable (_ ∧ _ ∧ _))

/-- No feed and no stop of a checkpoint comes while its missed deadline is not reported. -/
def Timely (afterExpiry : AfterExpiry) (calls : List (ℕ × Op)) : Prop :=
  ∀ past rest t op i, calls = past ++ (t, op) :: rest → op = .feed i ∨ op = .stop i →
    (watchOf afterExpiry i past).due t = false

/-- What a call does to checkpoint `i`. -/
def Checkpoint.apply (afterExpiry : AfterExpiry) (i : ℕ) (c : Checkpoint) (call : ℕ × Op) :
    Checkpoint :=
  let now := UInt32.ofNat call.1
  match call.2 with
  | .start index timeout => if index = i ∧ InRange timeout then c.start now timeout else c
  | .feed index => if index = i then c.feed afterExpiry now else c
  | .stop index => if index = i then c.stop.1 else c
  | .check => (c.check now).1
  | .hookDone index => if index = i then c.hookDone else c

section Supervisor

variable {N : ℕ}

theorem update_getElem? (s : Supervisor N) (index : ℕ) (f : Checkpoint → Checkpoint) (i : ℕ) :
    (s.update index f).checkpoints[i]? =
      (s.checkpoints[i]?).map fun c => if index = i then f c else c := by
  simp [Supervisor.update, eq_comm]

theorem apply_getElem? (s : Supervisor N) (call : ℕ × Op) (i : ℕ) :
    (s.apply call).checkpoints[i]? =
      (s.checkpoints[i]?).map (Checkpoint.apply s.afterExpiry i · call) := by
  obtain ⟨t, op⟩ := call
  cases op with
  | start index timeout =>
    have hrange : InRange timeout ↔ ¬ (timeout = 0 ∨ maxTimeoutTicks < timeout.toNat) := by
      rw [InRange, not_or, not_lt]
    change (s.start index (UInt32.ofNat t) timeout).1.checkpoints[i]? = _
    rw [Supervisor.start]
    by_cases hin : InRange timeout
    · rw [if_neg (hrange.mp hin)]
      by_cases hindex : N ≤ index
      · rw [if_pos hindex]
        rcases hi : s.checkpoints[i]? with _ | c
        · rfl
        · have hlt := (Vector.getElem?_eq_some_iff.mp hi).1
          simp [Checkpoint.apply, show index ≠ i by omega]
      · rw [if_neg hindex, update_getElem?]
        simp [Checkpoint.apply, hin]
    · rw [if_pos (not_not.mp (mt hrange.mpr hin))]
      simp [Checkpoint.apply, hin]
  | feed index => exact update_getElem? s index _ i
  | stop index => exact update_getElem? s index _ i
  | check => simp [Supervisor.apply, Supervisor.check, Checkpoint.apply]
  | hookDone index => exact update_getElem? s index _ i

theorem apply_afterExpiry (s : Supervisor N) (call : ℕ × Op) :
    (s.apply call).afterExpiry = s.afterExpiry := by
  obtain ⟨t, op⟩ := call
  cases op with
  | start index timeout =>
    change (s.start index (UInt32.ofNat t) timeout).1.afterExpiry = s.afterExpiry
    rw [Supervisor.start]
    split
    · rfl
    · split <;> rfl
  | feed index => rfl
  | stop index => rfl
  | check => rfl
  | hookDone index => rfl

theorem hooks_getLsbD (now : UInt32) (checkpoints : List Checkpoint) (index j : ℕ) (hj : j < 64) :
    (Supervisor.hooks now checkpoints index).getLsbD j = true ↔
      ∃ k c, checkpoints[k]? = some c ∧ (c.check now).2 = true ∧ j = index + k := by
  induction checkpoints generalizing index with
  | nil => simp [Supervisor.hooks]
  | cons c checkpoints ih =>
    have hbit : (if (c.check now).2 then (1 : BitVec 64) <<< index else 0).getLsbD j = true ↔
        (c.check now).2 = true ∧ j = index := by
      by_cases hc : (c.check now).2 = true
      · simp only [hc, if_true, true_and, BitVec.getLsbD_shiftLeft]
        simp
        omega
      · simp [hc]
    rw [Supervisor.hooks, BitVec.getLsbD_or, Bool.or_eq_true, hbit, ih]
    constructor
    · rintro (⟨hc, rfl⟩ | ⟨k, c', hget, hc, rfl⟩)
      · exact ⟨0, c, rfl, hc, rfl⟩
      · exact ⟨k + 1, c', hget, hc, by omega⟩
    · rintro ⟨_ | k, c', hget, hc, rfl⟩
      · cases hget
        exact .inl ⟨hc, rfl⟩
      · exact .inr ⟨k, c', hget, hc, by omega⟩

theorem hook_iff (c : Check) (i : ℕ) : c.hook i = true ↔ i < 64 ∧ c.expired.getLsbD i = true := by
  rw [Check.hook, Bool.and_eq_true, decide_eq_true_iff]
  refine and_congr_right fun hi => ?_
  have hpow : (1 : BitVec 64) <<< i = BitVec.twoPow 64 i := (BitVec.twoPow_eq 64 i).symm
  rw [hpow, BitVec.and_twoPow]
  by_cases hbit : c.expired.getLsbD i = true
  · have hne : BitVec.twoPow 64 i ≠ 0 := by
      intro hzero
      have hset := congrArg (BitVec.getLsbD · i) hzero
      simp [hi] at hset
    simpa [hbit] using hne
  · simp [hbit]

theorem check_hook_iff (hN : N ≤ 64) (s : Supervisor N) (now : UInt32) (i : ℕ) :
    (s.check now).2.hook i = true ↔ ∃ c, s.checkpoints[i]? = some c ∧ (c.check now).2 = true := by
  rw [hook_iff, Supervisor.check]
  constructor
  · rintro ⟨hi, hbit⟩
    obtain ⟨k, c, hget, hc, rfl⟩ := (hooks_getLsbD now _ 0 i hi).mp hbit
    rw [Nat.zero_add]
    exact ⟨c, by simpa using hget, hc⟩
  · rintro ⟨c, hget, hc⟩
    have hi := (Vector.getElem?_eq_some_iff.mp hget).1
    refine ⟨by omega, (hooks_getLsbD now _ 0 i (by omega)).mpr ⟨i, c, ?_, hc, by omega⟩⟩
    simpa using hget

end Supervisor

/-- The code's checkpoint is as its watch says, with the last check at `last`. -/
def Linked (last now : ℕ) : Watch → Checkpoint → Prop
  | .idle, c => c.state = .disarmed
  | .running since timeout, c => c.state = .armed ∧ c.lastFeed = UInt32.ofNat since ∧
      c.timeout.toNat = timeout ∧ 0 < timeout ∧ timeout ≤ maxTimeoutTicks ∧ since ≤ now ∧
      last < since + timeout
  | .overdue _, _ => False
  | .reporting timeout, c => c.state = .expiring ∧ c.timeout.toNat = timeout ∧ 0 < timeout ∧
      timeout ≤ maxTimeoutTicks
  | .reported timeout, c => c.state = .expired ∧ c.timeout.toNat = timeout ∧ 0 < timeout ∧
      timeout ≤ maxTimeoutTicks

theorem elapsed_iff {t since : ℕ} {timeout : UInt32} (hle : since ≤ t)
    (hturn : t - since < 2 ^ 32) :
    elapsed (UInt32.ofNat t) (UInt32.ofNat since) timeout = true ↔ since + timeout.toNat ≤ t := by
  have hspan : (UInt32.ofNat t - UInt32.ofNat since).toNat = t - since := by
    rw [UInt32.toNat_sub, UInt32.toNat_ofNat', UInt32.toNat_ofNat']
    omega
  rw [elapsed, decide_eq_true_iff, UInt32.le_iff_toNat_le, hspan]
  omega

section Step

variable {last now t : ℕ} {w : Watch} {c : Checkpoint}

theorem Linked.check (h : Linked last now w c) (hnow : now ≤ t) (hcadence : t ≤ last + 2 ^ 31) :
    ((c.check (UInt32.ofNat t)).2 = true ↔ w.due t = true) ∧
      Linked t t (w.checked t) (c.check (UInt32.ofNat t)).1 := by
  have hmax : maxTimeoutTicks = 2 ^ 31 - 1 := rfl
  cases w with
  | idle =>
    have hstate : c.state = .disarmed := h
    simp [Checkpoint.check, hstate, Watch.due, Watch.checked, Linked]
  | running since timeout =>
    obtain ⟨hstate, hfeed, htimeout, hpos, hrange, hsince, hlast⟩ := h
    have helapsed := @elapsed_iff t since c.timeout (by omega) (by omega)
    rw [htimeout, ← hfeed] at helapsed
    by_cases hdue : since + timeout ≤ t
    · have hpassed := helapsed.mpr hdue
      simp only [Checkpoint.check, hstate, hpassed, and_self, if_true, Checkpoint.drive, target,
        onEntry, decide_true, Watch.due, hdue, Watch.checked, true_and]
      exact ⟨rfl, htimeout, hpos, hrange⟩
    · have hopen : elapsed (UInt32.ofNat t) c.lastFeed c.timeout = false := by
        simpa using mt helapsed.mp hdue
      simp only [Checkpoint.check, hopen, Bool.false_eq_true, and_false, if_false, Watch.due, hdue,
        decide_false, Watch.checked, true_and]
      exact ⟨hstate, hfeed, htimeout, hpos, hrange, by omega, by omega⟩
  | overdue timeout => exact h.elim
  | reporting timeout =>
    obtain ⟨hstate, hrest⟩ := h
    simp only [Checkpoint.check, hstate, reduceCtorEq, false_and, if_false, Watch.due,
      Watch.checked, Bool.false_eq_true, true_and]
    exact ⟨hstate, hrest⟩
  | reported timeout =>
    obtain ⟨hstate, hrest⟩ := h
    simp only [Checkpoint.check, hstate, reduceCtorEq, false_and, if_false, Watch.due,
      Watch.checked, Bool.false_eq_true, true_and]
    exact ⟨hstate, hrest⟩

theorem Linked.mono (h : Linked last now w c) (hnow : now ≤ t) : Linked last t w c := by
  cases w with
  | running since timeout =>
    obtain ⟨hstate, hfeed, htimeout, hpos, hrange, hsince, hlast⟩ := h
    exact ⟨hstate, hfeed, htimeout, hpos, hrange, hsince.trans hnow, hlast⟩
  | _ => exact h

theorem Linked.start (h : Linked last now w c) (hlast : last ≤ t) {timeout : UInt32}
    (hrange : InRange timeout) (hnow : now ≤ t) :
    Linked last t (w.started t timeout.toNat) (c.start (UInt32.ofNat t) timeout) := by
  have hpos : 0 < timeout.toNat := by
    have := mt UInt32.toNat_inj.mp hrange.1
    rw [UInt32.toNat_zero] at this
    omega
  cases w with
  | idle =>
    have hstate : c.state = .disarmed := h
    rw [Checkpoint.start, if_pos hstate]
    simp only [Checkpoint.drive, hstate, target, Watch.started]
    exact ⟨rfl, rfl, rfl, hpos, hrange.2, le_rfl, by omega⟩
  | overdue timeout => exact h.elim
  | _ =>
    have hstate : c.state ≠ .disarmed := by
      rw [h.1]
      simp
    rw [Checkpoint.start, if_neg hstate]
    exact h.mono hnow

theorem Linked.feed (h : Linked last now w c) (afterExpiry : AfterExpiry) (hnow : now ≤ t)
    (hlast : last ≤ t) (hdue : w.due t = false) :
    Linked last t (w.fed afterExpiry t) (c.feed afterExpiry (UInt32.ofNat t)) := by
  cases w with
  | idle =>
    have hstate : c.state = .disarmed := h
    simp [Checkpoint.feed, hstate, Watch.fed, Linked]
  | running since timeout =>
    obtain ⟨hstate, hfeed, htimeout, hpos, hrange, hsince, hlast'⟩ := h
    have hearly : ¬ since + timeout ≤ t := by simpa [Watch.due] using hdue
    simp only [Checkpoint.feed, hstate, if_true, Checkpoint.drive, target, Watch.fed, hearly,
      if_false]
    exact ⟨rfl, rfl, htimeout, hpos, hrange, le_rfl, by omega⟩
  | overdue timeout => exact h.elim
  | reporting timeout =>
    obtain ⟨hstate, hrest⟩ := h
    simp only [Checkpoint.feed, hstate, reduceCtorEq, if_false, false_and, Watch.fed]
    exact ⟨hstate, hrest⟩
  | reported timeout =>
    obtain ⟨hstate, htimeout, hpos, hrange⟩ := h
    cases afterExpiry with
    | latch =>
      simp only [Checkpoint.feed, hstate, reduceCtorEq, if_false, and_false, Watch.fed]
      exact ⟨hstate, htimeout, hpos, hrange⟩
    | rearm =>
      simp only [Checkpoint.feed, hstate, reduceCtorEq, if_false, and_self, if_true,
        Checkpoint.drive, target, Watch.fed]
      exact ⟨rfl, rfl, htimeout, hpos, hrange, le_rfl, by omega⟩

theorem Linked.stop (h : Linked last now w c) (hdue : w.due t = false) :
    Linked last t (w.stopped t) c.stop.1 := by
  cases w with
  | idle =>
    have hstate : c.state = .disarmed := h
    simp [Checkpoint.stop, Checkpoint.drive, hstate, target, Watch.stopped, Linked]
  | overdue timeout => exact h.elim
  | reporting timeout =>
    obtain ⟨hstate, hrest⟩ := h
    rw [Checkpoint.stop, if_pos hstate]
    exact ⟨hstate, hrest⟩
  | running since timeout =>
    have hearly : ¬ since + timeout ≤ t := by simpa [Watch.due] using hdue
    simp [Checkpoint.stop, Checkpoint.drive, h.1, target, Watch.stopped, hearly, Linked]
  | reported timeout => simp [Checkpoint.stop, Checkpoint.drive, h.1, target, Watch.stopped, Linked]

theorem Linked.hookDone (h : Linked last now w c) (hnow : now ≤ t) :
    Linked last t w.hooked c.hookDone := by
  cases w with
  | idle =>
    have hstate : c.state = .disarmed := h
    simp [Checkpoint.hookDone, hstate, Watch.hooked, Linked]
  | overdue timeout => exact h.elim
  | reporting timeout =>
    obtain ⟨hstate, hrest⟩ := h
    simp only [Checkpoint.hookDone, hstate, if_true, Checkpoint.drive, target, Watch.hooked]
    exact ⟨rfl, hrest⟩
  | running since timeout =>
    rw [Checkpoint.hookDone, h.1, if_neg (by simp)]
    exact h.mono hnow
  | reported timeout =>
    rw [Checkpoint.hookDone, h.1, if_neg (by simp)]
    exact h

theorem Linked.apply (h : Linked last now w c) (afterExpiry : AfterExpiry) (i : ℕ) (op : Op)
    (hnow : now ≤ t) (hlast : last ≤ now) (hcadence : op = .check → t ≤ last + 2 ^ 31)
    (htimely : op = .feed i ∨ op = .stop i → w.due t = false) :
    Linked (if op = .check then t else last) t (w.step afterExpiry i (t, op))
      (c.apply afterExpiry i (t, op)) := by
  cases op with
  | start index timeout =>
    simp only [reduceCtorEq, if_false, Watch.step, Checkpoint.apply]
    split
    · rename_i hindex
      exact h.start (by omega) hindex.2 hnow
    · exact h.mono hnow
  | feed index =>
    simp only [reduceCtorEq, if_false, Watch.step, Checkpoint.apply]
    split
    · rename_i hindex
      subst hindex
      exact h.feed afterExpiry hnow (by omega) (htimely (.inl rfl))
    · exact h.mono hnow
  | stop index =>
    simp only [reduceCtorEq, if_false, Watch.step, Checkpoint.apply]
    split
    · rename_i hindex
      subst hindex
      exact h.stop (htimely (.inr rfl))
    · exact h.mono hnow
  | check =>
    simp only [if_true, Watch.step, Checkpoint.apply]
    exact (h.check hnow (hcadence rfl)).2
  | hookDone index =>
    simp only [reduceCtorEq, if_false, Watch.step, Checkpoint.apply]
    split
    · exact h.hookDone hnow
    · exact h.mono hnow

end Step

section Runs

variable {N : ℕ} {afterExpiry : AfterExpiry}

theorem watchOf_append (i : ℕ) (past : List (ℕ × Op)) (call : ℕ × Op) :
    watchOf afterExpiry i (past ++ [call]) = (watchOf afterExpiry i past).step afterExpiry i call := by
  rw [watchOf, List.foldl_append]
  rfl

theorem linked_run {calls past : List (ℕ × Op)} {s : Supervisor N} {last now : ℕ}
    (hpolicy : s.afterExpiry = afterExpiry) (hlast : last ≤ now)
    (hlinked : ∀ i c, s.checkpoints[i]? = some c → Linked last now (watchOf afterExpiry i past) c)
    (htimed : Timed last now calls) (htimely : Timely afterExpiry (past ++ calls)) :
    ∃ last' now', (∀ more, Timed last now (calls ++ more) → Timed last' now' more) ∧
      ∀ i c, (calls.foldl Supervisor.apply s).checkpoints[i]? = some c →
        Linked last' now' (watchOf afterExpiry i (past ++ calls)) c := by
  induction calls generalizing past s last now with
  | nil => exact ⟨last, now, fun _ hmore => hmore, by simpa using hlinked⟩
  | cons call calls ih =>
    obtain ⟨t, op⟩ := call
    obtain ⟨hnow, hcadence, hrest⟩ := htimed
    have hafter : (if op = .check then t else last) ≤ t := by
      split <;> omega
    have hstep : ∀ i c, (s.apply (t, op)).checkpoints[i]? = some c →
        Linked (if op = .check then t else last) t
          (watchOf afterExpiry i (past ++ [(t, op)])) c := by
      intro i c hc
      rw [apply_getElem?, Option.map_eq_some_iff] at hc
      obtain ⟨before, hbefore, rfl⟩ := hc
      rw [watchOf_append, hpolicy]
      exact (hlinked i before hbefore).apply afterExpiry i op hnow hlast hcadence fun htouch =>
        htimely past calls t op i rfl htouch
    obtain ⟨last', now', hmore, hend⟩ := ih ((apply_afterExpiry s (t, op)).trans hpolicy) hafter
      hstep hrest (by simpa using htimely)
    exact ⟨last', now', fun more hm => hmore more hm.2.2, by simpa using hend⟩

theorem new_getElem? {i : ℕ} {c : Checkpoint}
    (h : (Supervisor.new afterExpiry : Supervisor N).checkpoints[i]? = some c) :
    c.state = .disarmed := by
  obtain ⟨hi, rfl⟩ := Vector.getElem?_eq_some_iff.mp h
  simp [Supervisor.new, Checkpoint.new]

theorem isHealthy_eq_false {s : Supervisor N} {i : ℕ} {c : Checkpoint}
    (h : s.checkpoints[i]? = some c) (harmed : c.state ≠ .armed) (hwatch : c.state ≠ .disarmed) :
    s.isHealthy = false := by
  obtain ⟨hi, rfl⟩ := Vector.getElem?_eq_some_iff.mp h
  rw [Supervisor.isHealthy, Bool.and_eq_false_iff]
  refine .inr (List.all_eq_false.mpr ⟨s.checkpoints[i], ?_, by simp [harmed, hwatch]⟩)
  rw [Vector.mem_toList_iff]
  exact Vector.getElem_mem hi

/-- A missed deadline is reported by the next check, and nothing else is, in every run where no feed
and no stop of a checkpoint comes between its deadline and that check; and the node is not healthy until the checkpoint
comes back. -/
theorem missed_deadline_reported (hN : N ≤ 64) (afterExpiry : AfterExpiry) (start : ℕ)
    (calls : List (ℕ × Op)) (htimed : Timed start start calls)
    (htimely : Timely afterExpiry calls) :
    (∀ t, Timed start start (calls ++ [(t, .check)]) → ∀ i,
      (((calls.foldl Supervisor.apply (Supervisor.new afterExpiry : Supervisor N)).check
          (UInt32.ofNat t)).2.hook i = true ↔
        i < N ∧ (watchOf afterExpiry i calls).due t = true)) ∧
    ∀ i < N, (watchOf afterExpiry i calls).down = true →
      (calls.foldl Supervisor.apply (Supervisor.new afterExpiry : Supervisor N)).isHealthy =
        false := by
  obtain ⟨last, now, hmore, hlinked⟩ := @linked_run N afterExpiry calls [] (.new afterExpiry) start
    start rfl le_rfl (fun i c hc => new_getElem? hc) htimed htimely
  rw [List.nil_append] at hlinked
  generalize calls.foldl Supervisor.apply (Supervisor.new afterExpiry : Supervisor N) = s at *
  constructor
  · intro t ht i
    obtain ⟨hnow, hcadence, -⟩ := hmore _ ht
    rw [check_hook_iff hN]
    constructor
    · rintro ⟨c, hc, hexpired⟩
      exact ⟨(Vector.getElem?_eq_some_iff.mp hc).1,
        ((hlinked i c hc).check hnow (hcadence rfl)).1.mp hexpired⟩
    · rintro ⟨hi, hdue⟩
      have hc : s.checkpoints[i]? = some s.checkpoints[i] := Vector.getElem?_eq_getElem hi
      exact ⟨_, hc, ((hlinked i _ hc).check hnow (hcadence rfl)).1.mpr hdue⟩
  · intro i hi hdown
    have hc : s.checkpoints[i]? = some s.checkpoints[i] := Vector.getElem?_eq_getElem hi
    have hlink := hlinked i _ hc
    cases hw : watchOf afterExpiry i calls with
    | reporting timeout =>
      rw [hw] at hlink
      exact isHealthy_eq_false hc (by rw [hlink.1]; simp) (by rw [hlink.1]; simp)
    | reported timeout =>
      rw [hw] at hlink
      exact isHealthy_eq_false hc (by rw [hlink.1]; simp) (by rw [hlink.1]; simp)
    | _ => simp [hw, Watch.down] at hdown

theorem missed_deadline_reported_once :
    (([(0, Op.start 0 5), (4, .feed 0)].foldl Supervisor.apply
      (Supervisor.new .latch : Supervisor 1)).check 9).2.hook 0 = true := by
  have hreported := missed_deadline_reported (N := 1) (by omega) .latch 0
    [(0, Op.start 0 5), (4, .feed 0)] (by decide) (by
      intro past rest t op i hsplit htouch
      rcases past with _ | ⟨first, _ | ⟨second, past⟩⟩
      · simp only [List.nil_append, List.cons.injEq, Prod.mk.injEq] at hsplit
        obtain ⟨⟨rfl, rfl⟩, -⟩ := hsplit
        simp at htouch
      · simp only [List.cons_append, List.nil_append, List.cons.injEq, Prod.mk.injEq] at hsplit
        obtain ⟨rfl, ⟨rfl, rfl⟩, -⟩ := hsplit
        obtain rfl : 0 = i := by simpa using htouch
        decide
      · simp at hsplit)
  exact (hreported.1 9 (by decide) 0).mpr (by decide)

/-- Fed at 7 after its deadline at 5, the checkpoint is not reported by the check at 8. -/
theorem late_feed_hides_missed_deadline :
    Timed 0 0 ([(0, Op.start 0 5), (7, .feed 0)] ++ [(8, .check)]) ∧
      (watchOf .latch 0 [(0, Op.start 0 5), (7, .feed 0)]).due 8 = true ∧
      (([(0, Op.start 0 5), (7, .feed 0)].foldl Supervisor.apply
        (Supervisor.new .latch : Supervisor 1)).check 8).2.hook 0 = false := by
  decide +kernel

/-- So does a stop at 7. -/
example : (watchOf .latch 0 [(0, Op.start 0 5), (7, .stop 0)]).due 8 = true ∧
    (([(0, Op.start 0 5), (7, .stop 0)].foldl Supervisor.apply
      (Supervisor.new .latch : Supervisor 1)).check 8).2.hook 0 = false := by
  decide +kernel

end Runs

end WatchingZenoh.Supervisor
