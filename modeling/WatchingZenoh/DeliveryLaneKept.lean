import WatchingZenoh.DeliveryLane

/-! What every operation of a delivery lane keeps. The entries from the head on are a queue, and the
charges of the queue lie one behind another on the unrolled line of the byte area, so that no
subtraction goes below zero and no two samples share a byte. -/

namespace WatchingZenoh.DeliveryLane

variable {n : ℕ}

def total (queue : List Entry) : ℕ := (queue.map Entry.charge).sum

def owed (queue : List Entry) : ℕ := (queue.map Entry.callbacks).sum

/-- An entry whose charge begins at `u` of the unrolled byte area. What it skipped is the end of the
area. -/
structure Placed (cap u : ℕ) (e : Entry) : Prop where
  le : e.bytes ≤ e.charge
  bounded : e.charge ≤ cap
  offset : e.offset = (u + (e.charge - e.bytes)) % cap
  inside : e.offset + e.bytes ≤ cap
  skipped : 0 < e.charge - e.bytes → u % cap + (e.charge - e.bytes) = cap

def Laid (cap : ℕ) : ℕ → List Entry → Prop
  | _, [] => True
  | u, e :: queue => Placed cap u e ∧ Laid cap (u + e.charge) queue

/-- An entry of the queue is not free, and owes callbacks when it is published and only then. -/
structure Sound (e : Entry) : Prop where
  phase : e.phase ≠ .free
  callbacks : e.callbacks ≠ 0 ↔ e.phase = .ready

/-- The lane holds a queue whose charges begin at `start` of the unrolled byte area. -/
structure Kept (lane : DeliveryLane n) (queue : List Entry) (start : ℕ) : Prop where
  cap : 0 < lane.byteCapacity
  reads : Ring.Reads lane.entries lane.head queue
  len : lane.len = queue.length
  laid : Laid lane.byteCapacity start queue
  byteHead : lane.byteHead = start % lane.byteCapacity
  byteTail : lane.byteTail = (start + total queue) % lane.byteCapacity
  byteUsed : lane.byteUsed = total queue
  used_le : total queue ≤ lane.byteCapacity
  sound : ∀ e ∈ queue, Sound e
  pending : lane.pendingCallbacks = owed queue
  budget : owed queue ≤ lane.callbackBudget ∨ ∃ e ∈ queue, e.callbacks = owed queue
  reserved : lane.reserved = queue.countP (·.phase = .reserved)

structure SameBounds (lane lane' : DeliveryLane n) : Prop where
  byteCapacity : lane'.byteCapacity = lane.byteCapacity
  callbackBudget : lane'.callbackBudget = lane.callbackBudget

/-- The bounds, and whether the lane admits anything more. -/
structure SameTerms (lane lane' : DeliveryLane n) : Prop extends SameBounds lane lane' where
  stopping : lane'.stopping = lane.stopping

theorem SameTerms.trans {a b c : DeliveryLane n} (h : SameTerms a b) (h' : SameTerms b c) :
    SameTerms a c :=
  ⟨⟨h'.byteCapacity.trans h.byteCapacity, h'.callbackBudget.trans h.callbackBudget⟩,
    h'.stopping.trans h.stopping⟩

theorem sameTerms_refl (lane : DeliveryLane n) : SameTerms lane lane := ⟨⟨rfl, rfl⟩, rfl⟩

@[simp] theorem total_nil : total [] = 0 := rfl

@[simp] theorem owed_nil : owed [] = 0 := rfl

@[simp] theorem total_cons (e : Entry) (queue : List Entry) :
    total (e :: queue) = e.charge + total queue := by
  simp [total]

@[simp] theorem owed_cons (e : Entry) (queue : List Entry) :
    owed (e :: queue) = e.callbacks + owed queue := by
  simp [owed]

@[simp] theorem total_append (q r : List Entry) : total (q ++ r) = total q + total r := by
  simp [total]

@[simp] theorem owed_append (q r : List Entry) : owed (q ++ r) = owed q + owed r := by
  simp [owed]

theorem laid_append {cap u : ℕ} {q r : List Entry} :
    Laid cap u (q ++ r) ↔ Laid cap u q ∧ Laid cap (u + total q) r := by
  induction q generalizing u with
  | nil => simp [Laid]
  | cons e q ih => simp only [List.cons_append, Laid, ih, total_cons, Nat.add_assoc, and_assoc]

theorem sub?_eq {a b : ℕ} (h : b ≤ a) : sub? a b = some (a - b) := if_pos h

theorem advance_eq {at' by' cap : ℕ} (hat : at' < cap) (hby : by' ≤ cap) :
    advance at' by' cap = some ((at' + by') % cap) := by
  rw [advance, sub?_eq hat.le]
  simp only [Option.bind_eq_bind, Option.bind_some]
  split_ifs with hturn
  · rw [sub?_eq hturn, Nat.mod_eq_sub_mod (by omega), Nat.mod_eq_of_lt (by omega)]
    congr 1
    omega
  · rw [Nat.mod_eq_of_lt (by omega)]

section Steps

variable {lane : DeliveryLane n} {queue : List Entry} {start : ℕ}

theorem Kept.byteTail_lt (h : Kept lane queue start) : lane.byteTail < lane.byteCapacity := by
  rw [h.byteTail]
  exact Nat.mod_lt _ h.cap

theorem Kept.byteHead_lt (h : Kept lane queue start) : lane.byteHead < lane.byteCapacity := by
  rw [h.byteHead]
  exact Nat.mod_lt _ h.cap

theorem Kept.count (h : Kept lane queue start) (why : Refusal) : Kept (lane.count why) queue start :=
  ⟨h.cap, h.reads, h.len, h.laid, h.byteHead, h.byteTail, h.byteUsed, h.used_le, h.sound, h.pending,
    h.budget, h.reserved⟩

theorem Kept.stop (h : Kept lane queue start) : Kept lane.stop queue start :=
  ⟨h.cap, h.reads, h.len, h.laid, h.byteHead, h.byteTail, h.byteUsed, h.used_le, h.sound, h.pending,
    h.budget, h.reserved⟩

theorem Kept.place (h : Kept lane queue start) (bytes : ℕ) :
    lane.place bytes = some none ∨
      ∃ offset charge, lane.place bytes = some (some (offset, charge)) ∧
        total queue + charge ≤ lane.byteCapacity ∧
        ∀ callbacks phase,
          Placed lane.byteCapacity (start + total queue) ⟨offset, bytes, charge, callbacks, phase⟩ := by
  have htail := h.byteTail
  have htail_lt := h.byteTail_lt
  have hhead_lt := h.byteHead_lt
  have hused := h.byteUsed
  have hle := h.used_le
  have hcap := h.cap
  have hnear : ∀ b, lane.byteTail + b ≤ lane.byteCapacity → ∀ callbacks phase,
      Placed lane.byteCapacity (start + total queue) ⟨lane.byteTail, b, b, callbacks, phase⟩ :=
    fun b hb callbacks phase => ⟨le_rfl, by simp only; omega, by simp [htail], hb, by simp⟩
  rw [DeliveryLane.place, sub?_eq (by omega)]
  simp only [Option.bind_eq_bind, Option.bind_some]
  split_ifs with hzero hturn
  · exact .inr ⟨_, _, rfl, by omega, by rw [hzero]; exact hnear 0 (by omega)⟩
  · rw [sub?_eq htail_lt.le]
    simp only [Option.bind_some]
    split_ifs with hfits hwraps
    · exact .inr ⟨_, _, rfl, by omega, hnear bytes (by omega)⟩
    · have hpad : lane.byteCapacity - lane.byteTail + bytes - bytes =
          lane.byteCapacity - lane.byteTail := by omega
      have hround : (start + total queue + (lane.byteCapacity - lane.byteTail)) %
          lane.byteCapacity = 0 := by
        have hdiv := Nat.div_add_mod (start + total queue) lane.byteCapacity
        have hturns : start + total queue + (lane.byteCapacity - lane.byteTail) =
            lane.byteCapacity * ((start + total queue) / lane.byteCapacity + 1) := by
          rw [Nat.mul_add, Nat.mul_one]
          omega
        rw [hturns, Nat.mul_mod_right]
      refine .inr ⟨_, _, rfl, by omega, fun callbacks phase =>
        ⟨Nat.le_add_left _ _, by simp only; omega, ?_, by simp only; omega, ?_⟩⟩
      · simp only [hpad, hround]
      · simp only [hpad, ← htail]
        omega
    · exact .inl rfl
  · rw [sub?_eq (by omega)]
    simp only [Option.bind_some]
    split_ifs with hgap
    · exact .inr ⟨_, _, rfl, by omega, hnear bytes (by omega)⟩
    · exact .inl rfl

theorem Placed.tail {cap u : ℕ} {e : Entry} (h : Placed cap u e) (hcap : 0 < cap) :
    advance e.offset e.bytes cap = some ((u + e.charge) % cap) := by
  have hlt : e.offset < cap := by
    rw [h.offset]
    exact Nat.mod_lt _ hcap
  have hinside := h.inside
  have hle := h.le
  have hsum : u + (e.charge - e.bytes) + e.bytes = u + e.charge := by omega
  rw [advance_eq hlt (by omega), h.offset, Nat.mod_add_mod, hsum]

theorem Kept.reserve (h : Kept lane queue start) (bytes : ℕ) :
    (∃ why, lane.fits bytes = some (.error why) ∧
        lane.reserve bytes = some (lane.count why, .error why)) ∨
      ∃ lane' offset charge, lane.fits bytes = some (.ok ()) ∧ lane.reserve bytes =
          some (lane', .ok ⟨(lane.head + queue.length) % n, offset, bytes⟩) ∧
        Kept lane' (queue ++ [⟨offset, bytes, charge, 0, .reserved⟩]) start ∧
        lane'.head = lane.head ∧ SameTerms lane lane' ∧ queue.length < n := by
  have hlen := h.len
  have hroom := h.reads.room
  have hin := h.reads.inside
  rw [DeliveryLane.reserve, DeliveryLane.fits]
  split_ifs with hstop hfull
  · exact .inl ⟨_, rfl, rfl⟩
  · exact .inl ⟨_, rfl, rfl⟩
  rcases h.place bytes with hplace | ⟨offset, charge, hplace, hfits, hplaced⟩
  · rw [hplace]
    exact .inl ⟨_, rfl, rfl⟩
  · have hindex : advance lane.head lane.len n = some ((lane.head + queue.length) % n) := by
      rw [advance_eq hin (by omega), hlen]
    have hlt : (lane.head + queue.length) % n < n := Nat.mod_lt _ (by omega)
    have htail := (hplaced 0 .reserved).tail h.cap
    simp only at htail
    simp only [hplace, hindex, htail, Option.bind_eq_bind, Option.bind_some,
      Vector.getElem?_eq_getElem hlt]
    refine .inr ⟨_, offset, charge, rfl, rfl, ⟨h.cap, h.reads.push (by omega) _, ?_, ?_, h.byteHead, ?_, ?_,
      ?_, ?_, ?_, ?_, ?_⟩, rfl, ⟨⟨rfl, rfl⟩, rfl⟩, by omega⟩
    · simp [hlen]
    · exact laid_append.mpr ⟨h.laid, hplaced 0 .reserved, trivial⟩
    · simp [Nat.add_assoc]
    · simp [h.byteUsed]
    · simpa using hfits
    · intro e he
      rcases List.mem_append.mp he with he | he
      · exact h.sound e he
      · rw [List.mem_singleton] at he
        subst he
        exact ⟨by simp, by simp⟩
    · simp [h.pending]
    · simp only [owed_append, owed_cons, owed_nil, Nat.add_zero]
      rcases h.budget with hbudget | ⟨e, he, hall⟩
      · exact .inl hbudget
      · exact .inr ⟨e, List.mem_append_left _ he, hall⟩
    · simp [h.reserved]

theorem Sound.none_of_reserved {e : Entry} (h : Sound e) (hphase : e.phase = .reserved) :
    e.callbacks = 0 := by
  by_contra hne
  rw [h.callbacks.mp hne] at hphase
  cases hphase

theorem laid_replace {cap u : ℕ} {front back : List Entry} {e e' : Entry}
    (h : Laid cap u (front ++ e :: back)) (hoffset : e'.offset = e.offset)
    (hbytes : e'.bytes = e.bytes) (hcharge : e'.charge = e.charge) :
    Laid cap u (front ++ e' :: back) := by
  obtain ⟨hfront, hplaced, hback⟩ := laid_append.mp h
  refine laid_append.mpr ⟨hfront, ?_, ?_⟩
  · obtain ⟨hle, hbounded, hat, hinside, hskipped⟩ := hplaced
    constructor
    · omega
    · omega
    · rw [hoffset, hcharge, hbytes]
      exact hat
    · omega
    · rw [hcharge, hbytes]
      exact hskipped
  · rw [hcharge]
    exact hback

section Settled

variable {front back : List Entry} {e : Entry}

theorem Kept.settle (h : Kept lane (front ++ e :: back) start) (e' : Entry)
    (hphase : e.phase = .reserved)
    (hoffset : e'.offset = e.offset) (hbytes : e'.bytes = e.bytes) (hcharge : e'.charge = e.charge)
    (hsound : Sound e') (hsettled : e'.phase ≠ .reserved)
    (hbudget : owed front + e'.callbacks + owed back ≤ lane.callbackBudget ∨
      ∃ f ∈ front ++ e' :: back, f.callbacks = owed front + e'.callbacks + owed back) :
    Kept { lane with
        reserved := lane.reserved - 1
        pendingCallbacks := lane.pendingCallbacks + e'.callbacks
        entries := lane.entries.setIfInBounds ((lane.head + front.length) % n) e' }
      (front ++ e' :: back) start := by
  have hnone : e.callbacks = 0 := (h.sound e (by simp)).none_of_reserved hphase
  have hset : (front ++ e :: back).set front.length e' = front ++ e' :: back := by
    rw [List.set_append_right _ _ le_rfl, Nat.sub_self, List.set_cons_zero]
  have hreads := h.reads.set (i := front.length) (by simp) e'
  rw [hset] at hreads
  have htotal : total (front ++ e' :: back) = total (front ++ e :: back) := by simp [hcharge]
  have howed : owed (front ++ e' :: back) = owed front + e'.callbacks + owed back := by
    simp [Nat.add_assoc]
  have hpending := h.pending
  have hreserved := h.reserved
  refine ⟨h.cap, hreads, by simp [h.len], laid_replace h.laid hoffset hbytes hcharge, h.byteHead, ?_,
    ?_, ?_, fun f hf => ?_, ?_, ?_, ?_⟩
  · rw [htotal]
    exact h.byteTail
  · rw [htotal]
    exact h.byteUsed
  · rw [htotal]
    exact h.used_le
  · simp only [List.mem_append, List.mem_cons] at hf
    rcases hf with hf | rfl | hf
    · exact h.sound f (by simp [hf])
    · exact hsound
    · exact h.sound f (by simp [hf])
  · simp only [owed_append, owed_cons, hnone] at hpending
    simp only [howed, hpending]
    omega
  · rw [howed]
    exact hbudget
  · simp only [List.countP_append, List.countP_cons, hphase, decide_true, if_true] at hreserved
    simp only [List.countP_append, List.countP_cons, hsettled, decide_false, Bool.false_eq_true,
      if_false]
    omega

theorem Kept.slot (h : Kept lane (front ++ e :: back) start) :
    lane.entries[(lane.head + front.length) % n]? = some e :=
  h.reads.get (by simp)

theorem Kept.reserved_pos (h : Kept lane (front ++ e :: back) start) (hphase : e.phase = .reserved) :
    sub? lane.reserved 1 = some (lane.reserved - 1) := by
  refine sub?_eq ?_
  rw [h.reserved]
  simp [hphase]
  omega

theorem Kept.budget_void (h : Kept lane (front ++ e :: back) start) (hphase : e.phase = .reserved) :
    owed front + e.callbacks + owed back ≤ lane.callbackBudget ∨
      ∃ f ∈ front ++ { e with phase := .void } :: back,
        f.callbacks = owed front + e.callbacks + owed back := by
  have hnone : e.callbacks = 0 := (h.sound e (by simp)).none_of_reserved hphase
  have hbudget := h.budget
  simp only [owed_append, owed_cons, hnone, Nat.zero_add] at hbudget
  rcases hbudget with hle | ⟨f, hf, hall⟩
  · exact .inl (by omega)
  · simp only [List.mem_append, List.mem_cons] at hf
    rcases hf with hf | rfl | hf
    · exact .inr ⟨f, by simp [hf], by omega⟩
    · exact .inl (by omega)
    · exact .inr ⟨f, by simp [hf], by omega⟩

theorem Kept.void (h : Kept lane (front ++ e :: back) start) (hphase : e.phase = .reserved) :
    Kept (({ lane with reserved := lane.reserved - 1 } : DeliveryLane n).leave
        ((lane.head + front.length) % n) e)
      (front ++ { e with phase := .void } :: back) start := by
  have hnone : e.callbacks = 0 := (h.sound e (by simp)).none_of_reserved hphase
  have hsound : Sound { e with phase := .void } := ⟨by simp, by simp [hnone]⟩
  have hsettle := h.settle { e with phase := .void } hphase rfl rfl rfl hsound (by simp) (h.budget_void hphase)
  have hpending : lane.pendingCallbacks + e.callbacks = lane.pendingCallbacks := by omega
  simp only [hpending] at hsettle
  exact hsettle

theorem Kept.ready (h : Kept lane (front ++ e :: back) start) (hphase : e.phase = .reserved)
    {callbacks : ℕ} (hnone : callbacks ≠ 0)
    (hfits : lane.len = 1 ∨ lane.pendingCallbacks + callbacks ≤ lane.callbackBudget) :
    Kept { lane with
        reserved := lane.reserved - 1
        pendingCallbacks := lane.pendingCallbacks + callbacks
        entries := lane.entries.setIfInBounds ((lane.head + front.length) % n)
          { e with callbacks := callbacks, phase := .ready } }
      (front ++ { e with callbacks := callbacks, phase := .ready } :: back) start := by
  have hpending := h.pending
  have hlen := h.len
  have hold := (h.sound e (by simp)).none_of_reserved hphase
  simp only [owed_append, owed_cons, hold, Nat.zero_add] at hpending
  refine h.settle { e with callbacks := callbacks, phase := .ready } hphase rfl rfl rfl
    ⟨by simp, by simp [hnone]⟩ (by simp) ?_
  simp only
  rcases hfits with hone | hfits
  · simp only [List.length_append, List.length_cons] at hlen
    have hfront : front = [] := List.eq_nil_of_length_eq_zero (by omega)
    have hback : back = [] := List.eq_nil_of_length_eq_zero (by omega)
    subst hfront
    subst hback
    exact .inr ⟨{ e with callbacks := callbacks, phase := .ready }, by simp, by simp⟩
  · exact .inl (by omega)

def published (e : Entry) (callbacks : ℕ) (result : Except Refusal Unit) : Entry :=
  if result.toOption.isSome ∧ callbacks ≠ 0 then { e with callbacks := callbacks, phase := .ready }
  else { e with phase := .void }

theorem Kept.publish (h : Kept lane (front ++ e :: back) start) (hphase : e.phase = .reserved)
    {r : Reservation} (hr : r.index = (lane.head + front.length) % n) (callbacks : ℕ) :
    ∃ lane' result, lane.publish r callbacks = some (lane', result) ∧ lane'.head = lane.head ∧
      SameTerms lane lane' ∧
      Kept lane' (front ++ published e callbacks result :: back) start ∧
      (lane.stopping = false → callbacks ≤ lane.callbackBudget →
        lane.pendingCallbacks + callbacks ≤ lane.callbackBudget → result = .ok ()) := by
  have hvoid := h.void hphase
  rw [DeliveryLane.publish, hr, h.slot, h.reserved_pos hphase]
  simp only [Option.bind_eq_bind, Option.bind_some]
  split_ifs with hstop hnone hover hone hfits
  · exact ⟨_, _, rfl, rfl, ⟨⟨rfl, rfl⟩, rfl⟩, hvoid.count .stopping, by simp [hstop]⟩
  · refine ⟨_, _, rfl, rfl, ⟨⟨rfl, rfl⟩, rfl⟩, ?_, fun _ _ _ => rfl⟩
    rw [published, if_neg (by simp [hnone])]
    exact hvoid
  · refine ⟨_, _, rfl, rfl, ⟨⟨rfl, rfl⟩, rfl⟩, ?_, fun _ _ _ => rfl⟩
    rw [published, if_pos ⟨rfl, hnone⟩]
    exact h.ready hphase hnone (.inl hone)
  · exact ⟨_, _, rfl, rfl, ⟨⟨rfl, rfl⟩, rfl⟩, hvoid.count .callbacksFull, fun _ hle _ => by omega⟩
  · refine ⟨_, _, rfl, rfl, ⟨⟨rfl, rfl⟩, rfl⟩, ?_, fun _ _ _ => rfl⟩
    rw [published, if_pos ⟨rfl, hnone⟩]
    exact h.ready hphase hnone (.inr (by omega))
  · exact ⟨_, _, rfl, rfl, ⟨⟨rfl, rfl⟩, rfl⟩, hvoid.count .callbacksFull, fun _ _ hle => by omega⟩

theorem Kept.cancel (h : Kept lane (front ++ e :: back) start) (hphase : e.phase = .reserved)
    {r : Reservation} (hr : r.index = (lane.head + front.length) % n) :
    ∃ lane', lane.cancel r = some lane' ∧ lane'.head = lane.head ∧ SameTerms lane lane' ∧
      Kept lane' (front ++ { e with phase := .void } :: back) start := by
  rw [DeliveryLane.cancel, hr, h.slot, h.reserved_pos hphase]
  exact ⟨_, rfl, rfl, ⟨⟨rfl, rfl⟩, rfl⟩, h.void hphase⟩

end Settled

theorem countP_void {e : Entry} (h : e.phase ≠ .reserved) (queue : List Entry) :
    (e :: queue).countP (·.phase = .reserved) = queue.countP (·.phase = .reserved) :=
  List.countP_cons_of_neg (by simpa using h)

theorem Kept.evict {e : Entry} (h : Kept lane (queue ++ [e]) start) (hne : queue ≠ [])
    (hphase : e.phase ≠ .reserved) :
    ∃ lane', lane.evictLatest = some (lane', some ((lane.head + queue.length) % n)) ∧
      lane'.head = lane.head ∧ SameTerms lane lane' ∧ Kept lane' queue start := by
  have hlen := h.len
  have hroom := h.reads.room
  have hin := h.reads.inside
  have hpos := List.length_pos_iff.mpr hne
  simp only [List.length_append, List.length_singleton] at hlen hroom
  obtain ⟨hlaid, hplaced, -⟩ := laid_append.mp h.laid
  have hused := h.byteUsed
  have hused_le := h.used_le
  have hpending := h.pending
  have hreserved := h.reserved
  have hle := hplaced.le
  have hbounded := hplaced.bounded
  simp only [total_append, total_cons, total_nil] at hused hused_le
  simp only [owed_append, owed_cons, owed_nil] at hpending
  have hindex : advance lane.head (lane.len - 1) n = some ((lane.head + queue.length) % n) := by
    rw [advance_eq hin (by omega)]
    congr 3
    omega
  have hslot : lane.entries[(lane.head + queue.length) % n]? = some e := h.reads.get (by simp)
  have htail : lane.tailBefore e (e.charge - e.bytes) =
      some ((start + total queue) % lane.byteCapacity) := by
    rw [tailBefore]
    split_ifs with hpad
    · rw [sub?_eq (by omega)]
      have := hplaced.skipped hpad
      congr 1
      omega
    · rw [hplaced.offset]
      congr 2
      omega
  rw [DeliveryLane.evictLatest, if_neg (by omega)]
  simp only [hindex, hslot, hphase, if_false, sub?_eq hle, htail, Option.bind_eq_bind, Option.bind_some]
  rw [sub?_eq (by omega), sub?_eq (by omega)]
  simp only [Option.bind_some]
  refine ⟨_, rfl, rfl, ⟨⟨rfl, rfl⟩, rfl⟩, h.cap, h.reads.drop Entry.FREE, by simp only; omega, hlaid, h.byteHead, rfl, ?_,
    ?_, fun f hf => h.sound f (by simp [hf]), ?_, ?_, ?_⟩
  · simp only
    omega
  · simp only
    omega
  · simp only
    omega
  · simp only
    have hbudget := h.budget
    simp only [owed_append, owed_cons, owed_nil] at hbudget
    rcases hbudget with hbudget | ⟨f, hf, hall⟩
    · exact .inl (by omega)
    · rcases List.mem_append.mp hf with hf | hf
      · have hmax : f.callbacks ≤ owed queue :=
          List.single_le_sum (by simp) _ (List.mem_map_of_mem hf)
        exact .inr ⟨f, hf, by omega⟩
      · rw [List.mem_singleton] at hf
        subst hf
        exact .inl (by omega)
  · simp only
    rw [hreserved, List.countP_append, countP_void hphase]
    simp

theorem Kept.pop {e : Entry} (h : Kept lane (e :: queue) start) (hphase : e.phase ≠ .reserved) :
    ∃ lane' start', lane.pop = some lane' ∧ lane'.head = (lane.head + 1) % n ∧
      Kept lane' queue start' ∧ SameTerms lane lane' := by
  have hlen := h.len
  have hin := h.reads.inside
  have hused := h.byteUsed
  have hused_le := h.used_le
  have hpending := h.pending
  have hreserved := h.reserved
  obtain ⟨hplaced, hlaid⟩ := h.laid
  rw [List.length_cons] at hlen
  rw [total_cons] at hused hused_le
  rw [owed_cons] at hpending
  rw [countP_void hphase] at hreserved
  have hslot : lane.entries[lane.head]? = some e := h.reads.first
  have hbyteHead : advance lane.byteHead e.charge lane.byteCapacity =
      some ((start + e.charge) % lane.byteCapacity) := by
    rw [advance_eq h.byteHead_lt hplaced.bounded, h.byteHead, Nat.mod_add_mod]
  have hbudget : owed queue ≤ lane.callbackBudget ∨ ∃ f ∈ queue, f.callbacks = owed queue := by
    have hbudget := h.budget
    rw [owed_cons] at hbudget
    rcases hbudget with hbudget | ⟨f, hf, hall⟩
    · exact .inl (by omega)
    · rcases List.mem_cons.mp hf with rfl | hf
      · exact .inl (by omega)
      · have hmax : f.callbacks ≤ owed queue :=
          List.single_le_sum (by simp) _ (List.mem_map_of_mem hf)
        exact .inr ⟨f, hf, by omega⟩
  have hsound : ∀ f ∈ queue, Sound f := fun f hf => h.sound f (List.mem_cons_of_mem e hf)
  have hreads := h.reads.pop Entry.FREE
  rw [DeliveryLane.pop, hslot]
  simp only [Option.bind_eq_bind, Option.bind_some]
  rw [sub?_eq (by omega), hbyteHead, advance_eq hin (by omega), sub?_eq (by omega)]
  simp only [Option.bind_some]
  rw [sub?_eq (by omega)]
  simp only [Option.bind_some]
  split_ifs with hlast
  · have hnil : queue = [] := List.eq_nil_of_length_eq_zero (by omega)
    subst hnil
    refine ⟨_, 0, rfl, rfl, ⟨h.cap, hreads, by simp only; omega, trivial, ?_, ?_, rfl, Nat.zero_le _,
      by simp, ?_, .inl (Nat.zero_le _), hreserved⟩, ⟨⟨rfl, rfl⟩, rfl⟩⟩
    · simp
    · simp
    · simp only [owed_nil] at hpending ⊢
      omega
  · refine ⟨_, start + e.charge, rfl, rfl, ⟨h.cap, hreads, by simp only; omega, hlaid, rfl, ?_, ?_, ?_,
      hsound, ?_, hbudget, hreserved⟩, ⟨⟨rfl, rfl⟩, rfl⟩⟩
    · simp only
      rw [h.byteTail, total_cons, Nat.add_assoc]
    · simp only
      omega
    · simp only
      omega
    · simp only
      omega

end Steps

theorem kept_new {cap budget : ℕ} (hn : 0 < n) (hcap : 0 < cap) : Kept (new n cap budget) [] 0 :=
  ⟨hcap, Ring.reads_empty hn, rfl, trivial, (Nat.zero_mod cap).symm, (Nat.zero_mod cap).symm, rfl,
    Nat.zero_le _, by simp, rfl, .inl (Nat.zero_le _), rfl⟩

end WatchingZenoh.DeliveryLane
