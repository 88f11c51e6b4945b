import Mathlib
import WatchingZenoh.Library.Steps

/-! Paced declaration replay: a place in the sequence of declarations a host owes a peer. The host
sends in turns, a turn may be cut short by a refused send, and declarations are inserted and removed
while the telling goes on. Every insertion gets a serial, so that a value inserted again is another
entry. The peer holds what was declared to it and not taken back.

No sequence reaches `2^64` entries, so the saturating sum of `turn` is the plain one. -/

namespace WatchingZenoh.Replay

inductive Insertion
  | owed
  | emitNow
  deriving DecidableEq, Repr

inductive Removal
  | retract
  | silent
  deriving DecidableEq, Repr

structure ReplayCursor where
  next : ℕ
  total : ℕ
  deriving DecidableEq, Repr

namespace ReplayCursor

variable (c : ReplayCursor)

def begin (total : ℕ) : ReplayCursor := ⟨0, total⟩

def finished : Bool := decide (c.next ≥ c.total)

/-- The range to emit, as its start and its end, and the cursor moved past it. -/
def turn (burst : ℕ) : (ℕ × ℕ) × ReplayCursor :=
  let start := min c.next c.total
  let stop := min c.total (start + burst)
  ((start, stop), { c with next := stop })

def refused (place : ℕ) : ReplayCursor := { c with next := min c.next place }

def inserted (place : ℕ) : Insertion × ReplayCursor :=
  let place := min place c.total
  let owed := !c.finished && decide (place ≥ c.next)
  let next := if !owed then c.next + 1 else c.next
  (if owed then .owed else .emitNow, ⟨next, c.total + 1⟩)

def removed (place : ℕ) : Removal × ReplayCursor :=
  if c.total == 0 then (.silent, c)
  else
    let place := min place (c.total - 1)
    if place < c.next then (.retract, ⟨c.next - 1, c.total - 1⟩)
    else (.silent, ⟨c.next, c.total - 1⟩)

variable {c} {place : ℕ}

theorem inserted_owed (hnext : c.next < c.total) (hplace : c.next ≤ min place c.total) :
    c.inserted place = (.owed, ⟨c.next, c.total + 1⟩) := by
  have hfin : c.finished = false := by simpa [finished] using hnext
  simp only [inserted, hfin, decide_eq_true hplace]
  rfl

theorem inserted_emitNow (h : c.next < c.total → min place c.total < c.next) :
    c.inserted place = (.emitNow, ⟨c.next + 1, c.total + 1⟩) := by
  have howed : (!c.finished && decide (min place c.total ≥ c.next)) = false := by
    rw [Bool.and_eq_false_iff, Bool.not_eq_false', decide_eq_false_iff_not, finished,
      decide_eq_true_iff]
    omega
  simp only [inserted, howed]
  rfl

theorem removed_retract (htotal : 0 < c.total) (hplace : min place (c.total - 1) < c.next) :
    c.removed place = (.retract, ⟨c.next - 1, c.total - 1⟩) := by
  simp [removed, htotal.ne', hplace]

theorem removed_silent (htotal : 0 < c.total) (hplace : c.next ≤ min place (c.total - 1)) :
    c.removed place = (.silent, ⟨c.next, c.total - 1⟩) := by
  simp only [removed, beq_iff_eq, htotal.ne', if_false, if_neg (not_lt.mpr hplace)]

end ReplayCursor

structure Entry (α : Type*) where
  serial : ℕ
  value : α
  deriving DecidableEq

inductive Message (α : Type*)
  | declare (e : Entry α)
  | retract (e : Entry α)
  deriving DecidableEq

section Peer

variable {α : Type*} [DecidableEq α]

/-- What the peer holds after one more message, and after all of them. -/
def receive (held : List (Entry α)) : Message α → List (Entry α)
  | .declare e => held ++ [e]
  | .retract e => held.erase e

def held (sent : List (Message α)) : List (Entry α) := sent.foldl receive []

/-- No retraction is sent for an entry the peer does not hold. -/
def Sound (sent : List (Message α)) : Prop :=
  ∀ i e, sent[i]? = some (.retract e) → e ∈ held (sent.take i)

theorem held_declares (sent : List (Message α)) (es : List (Entry α)) :
    held (sent ++ es.map .declare) = held sent ++ es := by
  induction es generalizing sent with
  | nil => simp
  | cons e es ih =>
    have h := ih (sent ++ [.declare e])
    simpa [held, receive] using h

theorem held_retract (sent : List (Message α)) (e : Entry α) :
    held (sent ++ [.retract e]) = (held sent).erase e := by
  simp [held, receive]

theorem sound_nil : Sound ([] : List (Message α)) := by
  intro i e h
  simp at h

theorem Sound.declares {sent : List (Message α)} (h : Sound sent) (es : List (Entry α)) :
    Sound (sent ++ es.map .declare) := by
  intro i e hi
  by_cases hlt : i < sent.length
  · rw [List.getElem?_append_left hlt] at hi
    rw [List.take_append_of_le_length hlt.le]
    exact h i e hi
  · rw [List.getElem?_append_right (by omega)] at hi
    simp at hi

theorem Sound.retract {sent : List (Message α)} (h : Sound sent) {e : Entry α}
    (he : e ∈ held sent) : Sound (sent ++ [.retract e]) := by
  intro i f hi
  by_cases hlt : i < sent.length
  · rw [List.getElem?_append_left hlt] at hi
    rw [List.take_append_of_le_length hlt.le]
    exact h i f hi
  · rw [List.getElem?_append_right (by omega)] at hi
    obtain ⟨hzero, heq⟩ : i - sent.length = 0 ∧ Message.retract e = .retract f := by
      simpa [List.getElem?_singleton] using hi
    obtain rfl : i = sent.length := by omega
    cases heq
    simpa using he

end Peer

/-- A host: the cursor, its declarations in the order it recites them, the next serial and what it
has sent. -/
structure Host (α : Type*) where
  cursor : ReplayCursor
  entries : List (Entry α)
  issued : ℕ
  sent : List (Message α)

/-- A turn names which of its sends is refused, if any; a place past the end is the end, as the
cursor takes it. -/
inductive Act (α : Type*)
  | turn (burst : ℕ) (refusal : Option ℕ)
  | insert (place : ℕ) (value : α)
  | remove (place : ℕ)

namespace Host

variable {α : Type*}

def serialise (values : List α) : List (Entry α) :=
  values.zipIdx.map fun (value, serial) => ⟨serial, value⟩

def begin (values : List α) : Host α :=
  ⟨.begin values.length, serialise values, values.length, []⟩

/-- The entries of the range go out in order, up to the refused one. -/
def turn (h : Host α) (burst : ℕ) (refusal : Option ℕ) : Host α :=
  let ((start, stop), cursor) := h.cursor.turn burst
  let range := (h.entries.take stop).drop start
  match refusal.filter (· < stop - start) with
  | none => { h with cursor := cursor, sent := h.sent ++ range.map .declare }
  | some k =>
    { h with cursor := cursor.refused (start + k), sent := h.sent ++ (range.take k).map .declare }

def insert (h : Host α) (place : ℕ) (value : α) : Host α :=
  let e : Entry α := ⟨h.issued, value⟩
  let (answer, cursor) := h.cursor.inserted place
  { cursor := cursor
    entries := h.entries.insertIdx (min place h.entries.length) e
    issued := h.issued + 1
    sent := h.sent ++ (match answer with | .emitNow => [.declare e] | .owed => []) }

def remove (h : Host α) (place : ℕ) : Host α :=
  let place := min place (h.entries.length - 1)
  let (answer, cursor) := h.cursor.removed place
  { h with
    cursor := cursor
    entries := h.entries.eraseIdx place
    sent := h.sent ++ (match answer, h.entries[place]? with
      | .retract, some e => [.retract e]
      | _, _ => []) }

def step (h : Host α) : Act α → Host α
  | .turn burst refusal => h.turn burst refusal
  | .insert place value => h.insert place value
  | .remove place => h.remove place

end Host

end WatchingZenoh.Replay
