import WatchingZenoh.Library.Ring

/-! A bounded lane between a receive path and a consumer: event slots in a ring, a byte area that is a
ring too, and a budget of callbacks. A sample is reserved, then published or cancelled, offered at the
head, and completed; the newest one may be evicted to make room. A subtraction below zero and an index
outside the entries are panics. -/

namespace WatchingZenoh

inductive Refusal
  | eventsFull
  | bytesFull
  | callbacksFull
  | stopping
  | noConsumer
deriving DecidableEq, Repr

structure Reservation where
  index : ℕ
  offset : ℕ
  bytes : ℕ
deriving DecidableEq, Repr

structure Delivery where
  index : ℕ
  offset : ℕ
  bytes : ℕ
  callbacks : ℕ
deriving DecidableEq, Repr

inductive Next
  | empty
  | waiting
  | ready (delivery : Delivery)
deriving DecidableEq, Repr

structure Refused where
  total : ℕ := 0
  eventsFull : ℕ := 0
  bytesFull : ℕ := 0
  callbacksFull : ℕ := 0
  stopping : ℕ := 0
  noConsumer : ℕ := 0
deriving DecidableEq, Repr

inductive Phase
  | free
  | reserved
  | ready
  | void
deriving DecidableEq, Repr

structure Entry where
  offset : ℕ
  bytes : ℕ
  charge : ℕ
  callbacks : ℕ
  phase : Phase
deriving DecidableEq, Repr

def Entry.FREE : Entry := ⟨0, 0, 0, 0, .free⟩

structure DeliveryLane (n : ℕ) where
  entries : Vector Entry n
  head : ℕ
  len : ℕ
  byteCapacity : ℕ
  byteHead : ℕ
  byteTail : ℕ
  byteUsed : ℕ
  callbackBudget : ℕ
  pendingCallbacks : ℕ
  reserved : ℕ
  stopping : Bool
  refused : Refused
  evicted : ℕ

namespace DeliveryLane

variable {n : ℕ}

def sub? (a b : ℕ) : Option ℕ := if b ≤ a then some (a - b) else none

/-- A counter that stays at its largest value. -/
def saturatingSucc (count : ℕ) : ℕ := min (count + 1) (2 ^ 64 - 1)

def advance (at' by' cap : ℕ) : Option ℕ := do
  let rest ← sub? cap at'
  if rest ≤ by' then sub? by' rest else some (at' + by')

def new (n byteCapacity callbackBudget : ℕ) : DeliveryLane n :=
  ⟨Vector.replicate n Entry.FREE, 0, 0, byteCapacity, 0, 0, 0, callbackBudget, 0, 0, false, {}, 0⟩

def count (lane : DeliveryLane n) (why : Refusal) : DeliveryLane n :=
  let refused := { lane.refused with total := saturatingSucc lane.refused.total }
  { lane with refused := match why with
      | .eventsFull => { refused with eventsFull := saturatingSucc refused.eventsFull }
      | .bytesFull => { refused with bytesFull := saturatingSucc refused.bytesFull }
      | .callbacksFull => { refused with callbacksFull := saturatingSucc refused.callbacksFull }
      | .stopping => { refused with stopping := saturatingSucc refused.stopping }
      | .noConsumer => { refused with noConsumer := saturatingSucc refused.noConsumer } }

/-- Where a sample goes and what the byte area is charged for it. One that does not fit before the end
of the area goes to its start, and the end it skipped is charged to it. -/
def place (lane : DeliveryLane n) (bytes : ℕ) : Option (Option (ℕ × ℕ)) := do
  let free ← sub? lane.byteCapacity lane.byteUsed
  if bytes = 0 then some (some (lane.byteTail, 0))
  else if lane.byteHead ≤ lane.byteTail then
    let pad ← sub? lane.byteCapacity lane.byteTail
    if bytes ≤ pad ∧ bytes ≤ free then some (some (lane.byteTail, bytes))
    else if bytes ≤ lane.byteHead ∧ pad ≤ free ∧ bytes ≤ free - pad then some (some (0, pad + bytes))
    else some none
  else
    let gap ← sub? lane.byteHead lane.byteTail
    if bytes ≤ gap ∧ bytes ≤ free then some (some (lane.byteTail, bytes)) else some none

def fits (lane : DeliveryLane n) (bytes : ℕ) : Option (Except Refusal Unit) :=
  if lane.stopping then some (.error .stopping)
  else if lane.len = n then some (.error .eventsFull)
  else do
    let placed ← lane.place bytes
    some (if placed.isNone then .error .bytesFull else .ok ())

def canEverFit (lane : DeliveryLane n) (bytes : ℕ) : Bool := bytes ≤ lane.byteCapacity

def reserve (lane : DeliveryLane n) (bytes : ℕ) :
    Option (DeliveryLane n × Except Refusal Reservation) :=
  if lane.stopping then some (lane.count .stopping, .error .stopping)
  else if lane.len = n then some (lane.count .eventsFull, .error .eventsFull)
  else do
    match ← lane.place bytes with
    | none => some (lane.count .bytesFull, .error .bytesFull)
    | some (offset, charge) =>
      let index ← advance lane.head lane.len n
      let _ ← lane.entries[index]?
      let tail ← advance offset bytes lane.byteCapacity
      some ({ lane with
        entries := lane.entries.setIfInBounds index ⟨offset, bytes, charge, 0, .reserved⟩
        byteTail := tail
        byteUsed := lane.byteUsed + charge
        len := lane.len + 1
        reserved := lane.reserved + 1 }, .ok ⟨index, offset, bytes⟩)

def leave (lane : DeliveryLane n) (at' : ℕ) (entry : Entry) : DeliveryLane n :=
  { lane with entries := lane.entries.setIfInBounds at' { entry with phase := .void } }

def publish (lane : DeliveryLane n) (reservation : Reservation) (callbacks : ℕ) :
    Option (DeliveryLane n × Except Refusal Unit) := do
  let at' := reservation.index
  let entry ← lane.entries[at']?
  let reserved ← sub? lane.reserved 1
  let lane := { lane with reserved := reserved }
  if lane.stopping then some ((lane.leave at' entry).count .stopping, .error .stopping)
  else if callbacks = 0 then some (lane.leave at' entry, .ok ())
  else
    let budget := lane.callbackBudget
    let pending := lane.pendingCallbacks
    let fits := if budget < callbacks then lane.len = 1
      else pending ≤ budget ∧ callbacks ≤ budget - pending
    if ¬ fits then some ((lane.leave at' entry).count .callbacksFull, .error .callbacksFull)
    else some ({ lane with
      pendingCallbacks := pending + callbacks
      entries := lane.entries.setIfInBounds at'
        { entry with callbacks := callbacks, phase := .ready } }, .ok ())

def cancel (lane : DeliveryLane n) (reservation : Reservation) : Option (DeliveryLane n) := do
  let reserved ← sub? lane.reserved 1
  let entry ← lane.entries[reservation.index]?
  some ({ lane with reserved := reserved }.leave reservation.index entry)

/-- Where the byte area ended before an entry that skipped `pad` bytes was placed. -/
def tailBefore (lane : DeliveryLane n) (entry : Entry) (pad : ℕ) : Option ℕ :=
  if 0 < pad then sub? lane.byteCapacity pad else some entry.offset

def evictLatest (lane : DeliveryLane n) : Option (DeliveryLane n × Option ℕ) :=
  if lane.len < 2 then some (lane, none)
  else do
    let at' ← advance lane.head (lane.len - 1) n
    let entry ← lane.entries[at']?
    if entry.phase = .reserved then some (lane, none)
    else
      let pad ← sub? entry.charge entry.bytes
      let tail ← lane.tailBefore entry pad
      let used ← sub? lane.byteUsed entry.charge
      let pending ← sub? lane.pendingCallbacks entry.callbacks
      some ({ lane with
        byteTail := tail
        byteUsed := used
        pendingCallbacks := pending
        entries := lane.entries.setIfInBounds at' Entry.FREE
        len := lane.len - 1
        evicted := saturatingSucc lane.evicted }, some at')

def pop (lane : DeliveryLane n) : Option (DeliveryLane n) := do
  let entry ← lane.entries[lane.head]?
  let pending ← sub? lane.pendingCallbacks entry.callbacks
  let byteHead ← advance lane.byteHead entry.charge lane.byteCapacity
  let used ← sub? lane.byteUsed entry.charge
  let head ← advance lane.head 1 n
  let len ← sub? lane.len 1
  let lane := { lane with
    pendingCallbacks := pending
    byteHead := byteHead
    byteUsed := used
    entries := lane.entries.setIfInBounds lane.head Entry.FREE
    head := head
    len := len }
  some (if len = 0 then { lane with byteHead := 0, byteTail := 0, byteUsed := 0 } else lane)

/-- The loop of `front`, which passes over a skipped slot at each turn. -/
def frontLoop : ℕ → DeliveryLane n → Option (DeliveryLane n × Next)
  | 0, _ => none
  | turns + 1, lane =>
    if lane.len = 0 then some (lane, .empty)
    else do
      let entry ← lane.entries[lane.head]?
      match entry.phase with
      | .void =>
        let lane ← lane.pop
        frontLoop turns lane
      | .reserved => some (lane, .waiting)
      | .ready =>
        some (lane, .ready ⟨lane.head, entry.offset, entry.bytes, entry.callbacks⟩)
      | .free => some (lane, .empty)

def front (lane : DeliveryLane n) : Option (DeliveryLane n × Next) := frontLoop (lane.len + 1) lane

def complete (lane : DeliveryLane n) : Option (DeliveryLane n × Bool) :=
  if lane.len = 0 then some (lane, false)
  else do
    let entry ← lane.entries[lane.head]?
    if entry.phase ≠ .ready then some (lane, false)
    else
      let lane ← lane.pop
      some (lane, true)

def stop (lane : DeliveryLane n) : DeliveryLane n := { lane with stopping := true }

end DeliveryLane

end WatchingZenoh
