import WatchingZenoh.DeliveryLaneKept

/-! The samples of a delivery lane as their producers and the consumer know them: a plain queue, which
knows nothing of rings. It says what an operation is to answer and what it leaves. -/

namespace WatchingZenoh.DeliveryLane

variable {n : ℕ}

/-- A sample in the lane as its producer and its consumer know it. -/
structure Sample where
  place : Reservation
  phase : Phase
  callbacks : ℕ
deriving DecidableEq

inductive Event
  | reserved (result : Except Refusal Reservation)
  | published (reservation : Reservation) (callbacks : ℕ) (result : Except Refusal Unit)
  | cancelled (reservation : Reservation)
  | offered (next : Next)
  | completed (done : Bool)
  | evicted (slot : Option ℕ)
  | stopped
  | idle

def settleAt (index : ℕ) (f : Sample → Sample) (q : List Sample) : List Sample :=
  q.map fun s => if s.place.index = index then f s else s

def isVoid (s : Sample) : Bool := s.phase = .void

def after (q : List Sample) : Event → List Sample
  | .reserved (.ok r) => q ++ [⟨r, .reserved, 0⟩]
  | .reserved (.error _) => q
  | .published r callbacks result =>
    settleAt r.index (fun s => if result.toOption.isSome ∧ callbacks ≠ 0 then
      ⟨s.place, .ready, callbacks⟩ else ⟨s.place, .void, s.callbacks⟩) q
  | .cancelled r => settleAt r.index (fun s => ⟨s.place, .void, s.callbacks⟩) q
  | .offered _ => q.dropWhile isVoid
  | .completed true => q.tail
  | .completed false => q
  | .evicted (some _) => q.dropLast
  | .evicted none => q
  | .stopped => q
  | .idle => q

/-- What the consumer is to be told of a queue whose skipped samples were passed over. -/
def offerOf : List Sample → Next
  | [] => .empty
  | s :: _ =>
    if s.phase = .ready then .ready ⟨s.place.index, s.place.offset, s.place.bytes, s.callbacks⟩
    else .waiting

def newestOf (q : List Sample) : Option ℕ :=
  if q.length < 2 then none
  else q.getLast?.bind fun s => if s.phase = .reserved then none else some s.place.index

/-- An answer is the one the samples ask for. -/
def Right (n : ℕ) (q : List Sample) : Event → Prop
  | .reserved (.ok r) => r.index < n ∧ ∀ s ∈ q, s.place.index ≠ r.index
  | .published r _ _ => ⟨r, .reserved, 0⟩ ∈ q
  | .cancelled r => ⟨r, .reserved, 0⟩ ∈ q
  | .offered next => next = offerOf (q.dropWhile isVoid)
  | .completed done => done = q.head?.any fun s => s.phase = .ready
  | .evicted slot => slot = newestOf q
  | .reserved (.error _) => True
  | .stopped => True
  | .idle => True

/-- A lane, and the reservations its producers hold. -/
structure System (n : ℕ) where
  lane : DeliveryLane n
  held : List Reservation

inductive Op
  | reserve (bytes : ℕ)
  | publish (held callbacks : ℕ)
  | cancel (held : ℕ)
  | front
  | complete
  | evictLatest
  | stop

/-- One operation. A reservation that was given back is not given back again. -/
def System.step (s : System n) : Op → Option (System n × Event)
  | .reserve bytes => do
    let (lane, result) ← s.lane.reserve bytes
    some (⟨lane, s.held ++ result.toOption.toList⟩, .reserved result)
  | .publish k callbacks =>
    match s.held[k]? with
    | none => some (s, .idle)
    | some r => do
      let (lane, result) ← s.lane.publish r callbacks
      some (⟨lane, s.held.eraseIdx k⟩, .published r callbacks result)
  | .cancel k =>
    match s.held[k]? with
    | none => some (s, .idle)
    | some r => do
      let lane ← s.lane.cancel r
      some (⟨lane, s.held.eraseIdx k⟩, .cancelled r)
  | .front => do
    let (lane, next) ← s.lane.front
    some (⟨lane, s.held⟩, .offered next)
  | .complete => do
    let (lane, done) ← s.lane.complete
    some (⟨lane, s.held⟩, .completed done)
  | .evictLatest => do
    let (lane, slot) ← s.lane.evictLatest
    some (⟨lane, s.held⟩, .evicted slot)
  | .stop => some (⟨s.lane.stop, s.held⟩, .stopped)

/-- A run of operations on a new lane, with the events it gave. -/
def run (n byteCapacity callbackBudget : ℕ) (ops : List Op) : Option (System n × List Event) :=
  ops.foldlM (fun s op => (s.1.step op).map fun r => (r.1, s.2 ++ [r.2]))
    (⟨new n byteCapacity callbackBudget, []⟩, [])

def sampleOf (index : ℕ) (e : Entry) : Sample := ⟨⟨index, e.offset, e.bytes⟩, e.phase, e.callbacks⟩

/-- The entries of a queue that begins at slot `head`, as samples. -/
def samples (n : ℕ) : ℕ → List Entry → List Sample
  | _, [] => []
  | head, e :: queue => sampleOf (head % n) e :: samples n (head + 1) queue

theorem samples_mod (head : ℕ) (queue : List Entry) :
    samples n (head % n) queue = samples n head queue := by
  induction queue generalizing head with
  | nil => rfl
  | cons e queue ih =>
    rw [samples, samples, Nat.mod_mod, ← ih (head % n + 1), Nat.mod_add_mod, ih]

theorem samples_append (head : ℕ) (q r : List Entry) :
    samples n head (q ++ r) = samples n head q ++ samples n (head + q.length) r := by
  induction q generalizing head with
  | nil => rfl
  | cons e q ih =>
    rw [List.cons_append, samples, samples, ih, List.cons_append, List.length_cons]
    congr 3
    omega

@[simp] theorem length_samples (head : ℕ) (queue : List Entry) :
    (samples n head queue).length = queue.length := by
  induction queue generalizing head with
  | nil => rfl
  | cons e queue ih => rw [samples, List.length_cons, ih, List.length_cons]

theorem samples_split {head : ℕ} {queue : List Entry} {A B : List Sample} {s : Sample}
    (h : samples n head queue = A ++ s :: B) :
    ∃ front e back, queue = front ++ e :: back ∧ A = samples n head front ∧
      s = sampleOf ((head + front.length) % n) e ∧ B = samples n (head + front.length + 1) back := by
  induction A generalizing head queue with
  | nil =>
    cases queue with
    | nil => cases h
    | cons e queue =>
      rw [samples, List.nil_append] at h
      obtain ⟨rfl, rfl⟩ := List.cons.inj h
      exact ⟨[], e, queue, rfl, rfl, rfl, rfl⟩
  | cons a A ih =>
    cases queue with
    | nil => cases h
    | cons e queue =>
      rw [samples, List.cons_append] at h
      obtain ⟨rfl, hrest⟩ := List.cons.inj h
      obtain ⟨front, f, back, rfl, rfl, rfl, rfl⟩ := ih hrest
      have hlen : head + 1 + front.length = head + (e :: front).length := by
        rw [List.length_cons]
        omega
      exact ⟨e :: front, f, back, rfl, rfl, by rw [hlen], by rw [hlen]⟩

theorem index_of_mem {head : ℕ} {queue : List Entry} {s : Sample} (h : s ∈ samples n head queue) :
    ∃ i < queue.length, s.place.index = (head + i) % n := by
  obtain ⟨A, B, hsplit⟩ := List.append_of_mem h
  obtain ⟨front, e, back, rfl, -, rfl, -⟩ := samples_split hsplit
  exact ⟨front.length, by simp, rfl⟩

theorem index_ne_of_split {head : ℕ} {front back : List Entry} {e : Entry}
    (hroom : (front ++ e :: back).length ≤ n) :
    (∀ s ∈ samples n head front, s.place.index ≠ (head + front.length) % n) ∧
      ∀ s ∈ samples n (head + front.length + 1) back, s.place.index ≠ (head + front.length) % n := by
  rw [List.length_append, List.length_cons] at hroom
  constructor
  · intro s hs
    obtain ⟨i, hi, hindex⟩ := index_of_mem hs
    rw [hindex]
    exact Ring.slot_ne (by omega) (by omega) (by omega)
  · intro s hs
    obtain ⟨i, hi, hindex⟩ := index_of_mem hs
    rw [hindex, Nat.add_assoc, Nat.add_assoc]
    exact Ring.slot_ne (by omega) (by omega) (by omega)

theorem settleAt_of_ne {index : ℕ} {f : Sample → Sample} {l : List Sample}
    (h : ∀ s ∈ l, s.place.index ≠ index) : settleAt index f l = l :=
  (List.map_congr_left fun s hs => if_neg (h s hs)).trans (List.map_id' l)

theorem settleAt_split {head : ℕ} {front back : List Entry} {e e' : Entry} {f : Sample → Sample}
    (hroom : (front ++ e :: back).length ≤ n)
    (hf : f (sampleOf ((head + front.length) % n) e) = sampleOf ((head + front.length) % n) e') :
    settleAt ((head + front.length) % n) f (samples n head (front ++ e :: back)) =
      samples n head (front ++ e' :: back) := by
  obtain ⟨hfront, hback⟩ := index_ne_of_split (n := n) hroom
  have hcons : ∀ (a : Sample) (A B : List Sample), settleAt ((head + front.length) % n) f (A ++ a :: B) =
      settleAt ((head + front.length) % n) f A ++
        (if a.place.index = (head + front.length) % n then f a else a) ::
          settleAt ((head + front.length) % n) f B := by
    intro a A B
    rw [settleAt, List.map_append, List.map_cons]
    rfl
  have hindex : (sampleOf ((head + front.length) % n) e).place.index = (head + front.length) % n := rfl
  rw [samples_append, samples_append, samples, samples, hcons, settleAt_of_ne hfront,
    settleAt_of_ne hback, if_pos hindex, hf]

/-- The reservations the producers hold are those of the samples that wait for them. -/
def pendingPlaces (q : List Sample) : List Reservation :=
  (q.filter fun s => s.phase = .reserved).map Sample.place

structure Holds (s : System n) (q : List Sample) (queue : List Entry) (start : ℕ) : Prop where
  kept : Kept s.lane queue start
  queued : q = samples n s.lane.head queue
  held : s.held.Perm (pendingPlaces q)

theorem Holds.entry {s : System n} {q : List Sample} {queue : List Entry} {start k : ℕ}
    {r : Reservation} (h : Holds s q queue start) (hr : s.held[k]? = some r) :
    ∃ front e back, queue = front ++ e :: back ∧ e.phase = .reserved ∧
      r = ⟨(s.lane.head + front.length) % n, e.offset, e.bytes⟩ ∧
      ⟨r, .reserved, 0⟩ ∈ q ∧
      (s.held.eraseIdx k).Perm (pendingPlaces (samples n s.lane.head front) ++
        pendingPlaces (samples n (s.lane.head + front.length + 1) back)) := by
  have hmem : r ∈ pendingPlaces q := h.held.mem_iff.mp (List.mem_of_getElem? hr)
  obtain ⟨t, ht, rfl⟩ := List.mem_map.mp hmem
  obtain ⟨ht, hphase⟩ := List.mem_filter.mp ht
  rw [decide_eq_true_eq] at hphase
  obtain ⟨A, B, hsplit⟩ := List.append_of_mem ht
  obtain ⟨front, e, back, rfl, rfl, rfl, rfl⟩ := samples_split (h.queued.symm.trans hsplit)
  have hreserved : e.phase = .reserved := hphase
  have hnone : e.callbacks = 0 := (h.kept.sound e (by simp)).none_of_reserved hreserved
  refine ⟨front, e, back, rfl, hphase, rfl, ?_, ?_⟩
  · have heq : sampleOf ((s.lane.head + front.length) % n) e =
        ⟨(sampleOf ((s.lane.head + front.length) % n) e).place, .reserved, 0⟩ := by
      simp only [sampleOf, hreserved, hnone]
    rw [← heq]
    exact ht
  · obtain ⟨hlt, hget⟩ := List.getElem?_eq_some_iff.mp hr
    have hperm := (List.getElem_cons_eraseIdx_perm hlt).trans h.held
    rw [hget, hsplit] at hperm
    have hpending : pendingPlaces (samples n s.lane.head front ++
        sampleOf ((s.lane.head + front.length) % n) e ::
          samples n (s.lane.head + front.length + 1) back) =
        pendingPlaces (samples n s.lane.head front) ++
          (sampleOf ((s.lane.head + front.length) % n) e).place ::
            pendingPlaces (samples n (s.lane.head + front.length + 1) back) := by
      simp only [pendingPlaces, List.filter_append, List.filter_cons, hphase, decide_true, if_true,
        List.map_append, List.map_cons]
    rw [hpending] at hperm
    exact (hperm.trans List.perm_middle).cons_inv

theorem pendingPlaces_append (q r : List Sample) :
    pendingPlaces (q ++ r) = pendingPlaces q ++ pendingPlaces r := by
  simp [pendingPlaces]

theorem pendingPlaces_cons_of_ne {s : Sample} (h : s.phase ≠ .reserved) (q : List Sample) :
    pendingPlaces (s :: q) = pendingPlaces q := by
  simp [pendingPlaces, h]

theorem Kept.frontLoop {lane : DeliveryLane n} {queue : List Entry} {start turns : ℕ}
    (h : Kept lane queue start) (hturns : queue.length < turns) :
    ∃ lane' next queue' start', DeliveryLane.frontLoop turns lane = some (lane', next) ∧
      Kept lane' queue' start' ∧ SameTerms lane lane' ∧
      samples n lane'.head queue' = (samples n lane.head queue).dropWhile isVoid ∧
      next = offerOf ((samples n lane.head queue).dropWhile isVoid) := by
  induction turns generalizing lane queue start with
  | zero => omega
  | succ turns ih =>
    have hlen := h.len
    have hhead := Nat.mod_eq_of_lt h.reads.inside
    rw [DeliveryLane.frontLoop]
    cases queue with
    | nil =>
      rw [List.length_nil] at hlen
      rw [if_pos hlen]
      exact ⟨lane, _, [], start, rfl, h, sameTerms_refl lane, rfl, rfl⟩
    | cons e queue =>
      rw [List.length_cons] at hlen hturns
      rw [if_neg (by omega), h.reads.first]
      simp only [Option.bind_eq_bind, Option.bind_some]
      have hcons : samples n lane.head (e :: queue) =
          sampleOf lane.head e :: samples n (lane.head + 1) queue := by
        rw [samples, hhead]
      cases hphase : e.phase with
      | free => exact absurd hphase (h.sound e (by simp)).phase
      | reserved =>
        have hnot : isVoid (sampleOf lane.head e) = false := by simp [isVoid, sampleOf, hphase]
        rw [hcons, List.dropWhile_cons_of_neg (by simp [hnot]), ← hcons]
        refine ⟨lane, _, e :: queue, start, rfl, h, sameTerms_refl lane, rfl, ?_⟩
        rw [hcons, offerOf, if_neg (by simp [sampleOf, hphase])]
      | ready =>
        have hnot : isVoid (sampleOf lane.head e) = false := by simp [isVoid, sampleOf, hphase]
        rw [hcons, List.dropWhile_cons_of_neg (by simp [hnot]), ← hcons]
        refine ⟨lane, _, e :: queue, start, rfl, h, sameTerms_refl lane, rfl, ?_⟩
        rw [hcons, offerOf, if_pos (by simp [sampleOf, hphase])]
        rfl
      | void =>
        have hvoid : isVoid (sampleOf lane.head e) = true := by simp [isVoid, sampleOf, hphase]
        obtain ⟨lane', start', hpop, hhead', hkept, hbounds⟩ := h.pop (by simp [hphase])
        rw [hpop, Option.bind_some, hcons, List.dropWhile_cons_of_pos hvoid]
        have hsamples : samples n lane'.head queue = samples n (lane.head + 1) queue := by
          rw [hhead', samples_mod]
        rw [← hsamples]
        obtain ⟨lane'', next, queue'', start'', hloop, hkept', hbounds', hrest⟩ := ih hkept (by omega)
        exact ⟨lane'', next, queue'', start'', hloop, hkept', hbounds.trans hbounds', hrest⟩

theorem pendingPlaces_dropWhile (q : List Sample) :
    pendingPlaces (q.dropWhile isVoid) = pendingPlaces q := by
  induction q with
  | nil => rfl
  | cons s q ih =>
    by_cases hvoid : isVoid s = true
    · have hne : s.phase ≠ .reserved := by
        rw [isVoid, decide_eq_true_eq] at hvoid
        rw [hvoid]
        decide
      rw [List.dropWhile_cons_of_pos hvoid, ih, pendingPlaces_cons_of_ne hne]
    · rw [List.dropWhile_cons_of_neg hvoid]

def Apart (a b : Reservation) : Prop :=
  0 < a.bytes → 0 < b.bytes → a.offset + a.bytes ≤ b.offset ∨ b.offset + b.bytes ≤ a.offset

theorem placed_of_mem {cap u : ℕ} {queue : List Entry} (h : Laid cap u queue) {f : Entry}
    (hf : f ∈ queue) : ∃ v, u ≤ v ∧ v + f.charge ≤ u + total queue ∧ Placed cap v f := by
  induction queue generalizing u with
  | nil => simp at hf
  | cons e queue ih =>
    rw [total_cons]
    rcases List.mem_cons.mp hf with rfl | hf
    · exact ⟨u, le_rfl, by omega, h.1⟩
    · obtain ⟨v, hle, hend, hplaced⟩ := ih h.2 hf
      exact ⟨v, by omega, by omega, hplaced⟩

theorem laid_apart {cap u : ℕ} {queue : List Entry} (h : Laid cap u queue)
    (htotal : total queue ≤ cap) : queue.Pairwise fun e f => ∀ i j, Apart (sampleOf i e).place
      (sampleOf j f).place := by
  induction queue generalizing u with
  | nil => exact .nil
  | cons e queue ih =>
    rw [total_cons] at htotal
    rw [List.pairwise_cons]
    refine ⟨fun f hf i j ha hb => ?_, ih h.2 (by omega)⟩
    obtain ⟨v, hle, hend, hplaced⟩ := placed_of_mem h.2 hf
    have hcharge := h.1.le
    have hcharge' := hplaced.le
    have hapart : (u + (e.charge - e.bytes)) % cap + e.bytes ≤ (v + (f.charge - f.bytes)) % cap ∨
        (v + (f.charge - f.bytes)) % cap + f.bytes ≤ (u + (e.charge - e.bytes)) % cap :=
      Ring.apart_of_unrolled (by omega) (by omega) hb
    rw [← h.1.offset, ← hplaced.offset] at hapart
    exact hapart

theorem pairwise_apart {cap u head : ℕ} {queue : List Entry} (h : Laid cap u queue)
    (htotal : total queue ≤ cap) :
    (samples n head queue).Pairwise fun a b => Apart a.place b.place := by
  have hapart := laid_apart h htotal
  clear h htotal
  induction queue generalizing head with
  | nil => exact .nil
  | cons e queue ih =>
    rw [List.pairwise_cons] at hapart
    rw [samples, List.pairwise_cons]
    refine ⟨fun t ht => ?_, ih hapart.2⟩
    obtain ⟨A, B, hsplit⟩ := List.append_of_mem ht
    obtain ⟨front, f, back, rfl, -, rfl, -⟩ := samples_split hsplit
    exact hapart.1 f (by simp) _ _

end WatchingZenoh.DeliveryLane
