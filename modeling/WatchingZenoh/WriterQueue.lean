import Mathlib

/-! The outbound queue of a link: one lane of frames for each priority, served in strict priority, the
keepalive ahead of every lane, and the fence that holds the control lane back until what was queued
before it has left. A writer takes one frame at a time, or packs what is queued into one buffer. -/

namespace WatchingZenoh.WriterQueue

abbrev Bytes := List UInt8

inductive Priority
  | control
  | realTime
  | interactiveHigh
  | interactiveLow
  | dataHigh
  | data
  | dataLow
  | background
  deriving DecidableEq, Repr

abbrev Lane := Fin 8

def Priority.wireByte : Priority → Lane
  | control => 0
  | realTime => 1
  | interactiveHigh => 2
  | interactiveLow => 3
  | dataHigh => 4
  | data => 5
  | dataLow => 6
  | background => 7

def Priority.default : Priority := .data

/-- A queued frame, with the priority it was sent at and the number it was queued under. -/
structure Entry where
  priority : Priority
  frame : Bytes
  seq : ℕ
  deriving DecidableEq

/-- The state of a heap queue under its lock: what a take reads and writes. -/
structure LaneState where
  urgent : List Bytes
  lanes : Lane → List Entry
  singleLane : Bool
  occupied : Lane → ℕ
  congested : Lane → Bool
  inFlight : Lane → Option ℕ
  nextSeq : ℕ
  fence : ℕ

inductive Taken
  | frame (priority : Priority) (bytes : Bytes)
  | empty
  deriving DecidableEq

def minFramesPerWrite : ℕ := 4

def writePackBytes : ℕ := 64 * 1024

/-- The bytes one write may take when its first frame is `head` bytes long. -/
def writeBound (batch head : ℕ) : ℕ := max batch (min (head * minFramesPerWrite) writePackBytes)

namespace LaneState

variable (s : LaneState)

def laneOf (priority : Priority) : Lane :=
  if s.singleLane then Priority.default.wireByte else priority.wireByte

def controlLane : Lane := s.laneOf .control

/-- The bytes the writer held leave their lanes. -/
def releaseInFlight : LaneState × Bool :=
  ({ s with
      occupied := fun lane => s.occupied lane - (s.inFlight lane).getD 0
      congested := fun lane => if (s.inFlight lane).isSome then false else s.congested lane
      inFlight := fun _ => none },
    decide (∃ lane, (s.inFlight lane).isSome))

/-- Lanes are first in, first out, so that a lane's first entry is its oldest. A fence found passed is
dropped. -/
def controlHeldByFence : LaneState × Bool :=
  if s.fence = 0 then (s, false)
  else
    let older := decide (∃ lane, lane ≠ s.controlLane ∧
      (s.lanes lane).head?.any fun entry => entry.seq < s.fence)
    (if older then s else { s with fence := 0 }, older)

def takeFrom (lane : Lane) : Option (Entry × LaneState) :=
  match s.lanes lane with
  | [] => none
  | entry :: rest => some (entry, { s with
      lanes := Function.update s.lanes lane rest
      inFlight := Function.update s.inFlight lane (some entry.frame.length) })

def takeUrgent : Option (Bytes × LaneState) :=
  match s.urgent with
  | [] => none
  | frame :: rest => some (frame, { s with urgent := rest })

/-- The next frame, highest priority first, after the one the writer held is released; with whether
room was freed. -/
def takeNext : Taken × Bool × LaneState :=
  let (s, freed) := s.releaseInFlight
  match s.takeUrgent with
  | some (frame, s) => (.frame .control frame, freed, s)
  | none =>
    let (s, held) := s.controlHeldByFence
    match (List.finRange 8).findSome? fun lane =>
        if held ∧ lane = s.controlLane then none else s.takeFrom lane with
    | some (entry, s) => (.frame entry.priority entry.frame, freed, s)
    | none => (.empty, freed, s)

def takeUrgentOnly : Taken × Bool × LaneState :=
  let (s, freed) := s.releaseInFlight
  match s.takeUrgent with
  | some (frame, s) => (.frame .control frame, freed, s)
  | none => (.empty, freed, s)

/-- A take under way: its first frame, the buffer once there is something to join, and what it may
weigh. -/
structure Pack where
  first : Option (Priority × Bytes)
  joined : Option Bytes
  bound : ℕ

/-- Whether a frame does not fit any more; the first always does. -/
def Pack.full (pack : Pack) (len : ℕ) : Bool :=
  match pack.first with
  | none => false
  | some (_, head) => decide ((pack.joined.getD head).length + len > pack.bound)

def Pack.add (budget : ℕ) (pack : Pack) (entry : Entry) : Pack :=
  match pack.first with
  | none => { pack with
      first := some (entry.priority, entry.frame)
      bound := writeBound budget entry.frame.length }
  | some (_, head) => { pack with joined := some (pack.joined.getD head ++ entry.frame) }

/-- The frames of one lane, as far as they fit; with whether one did not. -/
def packLane (budget : ℕ) (lane : Lane) :
    List Entry → LaneState → Pack → LaneState × Pack × Bool
  | [], s, pack => (s, pack, false)
  | entry :: rest, s, pack =>
    if pack.full entry.frame.length then (s, pack, true)
    else packLane budget lane rest { s with
        lanes := Function.update s.lanes lane rest
        inFlight := Function.update s.inFlight lane
          (some ((s.inFlight lane).getD 0 + entry.frame.length)) }
      (pack.add budget entry)

def packLanes (budget : ℕ) (held : Bool) : List Lane → LaneState → Pack → LaneState × Pack
  | [], s, pack => (s, pack)
  | lane :: rest, s, pack =>
    if held ∧ lane = s.controlLane then packLanes budget held rest s pack
    else
      match packLane budget lane (s.lanes lane) s pack with
      | (s, pack, true) => (s, pack)
      | (s, pack, false) => packLanes budget held rest s pack

/-- What is queued, up to a budget, as one buffer. Whether the fence holds the control lane is asked
once, before any frame is taken. -/
def takeNextPacked (budget : ℕ) : Taken × Bool × LaneState :=
  let (s, freed) := s.releaseInFlight
  match s.takeUrgent with
  | some (frame, s) => (.frame .control frame, freed, s)
  | none =>
    let (s, held) := s.controlHeldByFence
    let (s, pack) := packLanes budget held (List.finRange 8) s ⟨none, none, budget⟩
    match pack.first, pack.joined with
    | none, _ => (.empty, freed, s)
    | some (priority, _), some buffer => (.frame priority buffer, freed, s)
    | some (priority, frame), none => (.frame priority frame, freed, s)

/-- Put a frame on its lane, under the next number. -/
def enqueue (priority : Priority) (frame : Bytes) : LaneState :=
  let lane := s.laneOf priority
  { s with
    occupied := Function.update s.occupied lane (s.occupied lane + frame.length)
    nextSeq := s.nextSeq + 1
    lanes := Function.update s.lanes lane (s.lanes lane ++ [⟨priority, frame, s.nextSeq⟩]) }

/-- Whether the session has priorities. Frames already queued keep their lanes. -/
def reshape (qos : Bool) : LaneState := { s with singleLane := !qos }

/-- What is on the lanes now leaves before any control frame does. -/
def raiseFence : LaneState := { s with fence := s.nextSeq }

end LaneState

end WatchingZenoh.WriterQueue
