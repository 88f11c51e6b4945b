import Mathlib

/-! The checkpoints a node watches. An application feeds each of them, a check finds those whose
deadline has passed, and the node is healthy only while every checkpoint under watch is armed. The
host hands in the time on every call, as a tick count modulo `2^32`. -/

namespace WatchingZenoh.Supervisor

inductive SupervisionState
  | disarmed
  | armed
  | expiring
  | expired
  deriving DecidableEq, Repr

inductive SupervisionEvent
  | start
  | feed
  | stop
  | deadlineExpired
  | hookDone
  | rearm
  deriving DecidableEq, Repr

inductive Duty
  | armDeadline
  | cancelDeadline
  | runExpiryHook
  deriving DecidableEq, Repr

/-- The state a transition leads to; a feed leaves `armed` and enters it again. -/
def target : SupervisionState → SupervisionEvent → Option SupervisionState
  | .disarmed, .start => some .armed
  | .armed, .feed => some .armed
  | .armed, .deadlineExpired => some .expiring
  | .armed, .stop => some .disarmed
  | .expiring, .hookDone => some .expired
  | .expired, .rearm => some .armed
  | .expired, .stop => some .disarmed
  | _, _ => none

def onEntry : SupervisionState → Option Duty
  | .disarmed => some .cancelDeadline
  | .armed => some .armDeadline
  | .expiring => some .runExpiryHook
  | .expired => none

def maxTimeoutTicks : ℕ := 2 ^ 31 - 1

/-- Whether `timeout` ticks have passed from `last` to `now`, by the difference modulo `2^32`. -/
def elapsed (now last timeout : UInt32) : Bool := decide (timeout ≤ now - last)

inductive AfterExpiry
  | latch
  | rearm
  deriving DecidableEq, Repr

inductive StartRefused
  | noSuchCheckpoint
  | timeoutOutOfRange
  deriving DecidableEq, Repr

inductive Stop
  | stopped
  | refused
  | noSuchCheckpoint
  deriving DecidableEq, Repr

/-- The expiry hooks a check asks for, one bit a checkpoint. -/
structure Check where
  expired : BitVec 64
  deriving DecidableEq, Repr

def Check.hook (c : Check) (index : ℕ) : Bool :=
  decide (index < 64) && c.expired &&& ((1 : BitVec 64) <<< index) != 0

structure Checkpoint where
  state : SupervisionState
  lastFeed : UInt32
  timeout : UInt32
  deriving DecidableEq, Repr

namespace Checkpoint

def new : Checkpoint := ⟨.disarmed, 0, 0⟩

/-- An event that the state has no transition for changes nothing and asks for nothing. -/
def drive (c : Checkpoint) (event : SupervisionEvent) : Checkpoint × Option Duty :=
  match target c.state event with
  | none => (c, none)
  | some state => ({ c with state := state }, onEntry state)

/-- A checkpoint under watch is not started again. -/
def start (c : Checkpoint) (now timeout : UInt32) : Checkpoint :=
  if c.state = .disarmed then ({ c with lastFeed := now, timeout := timeout }.drive .start).1 else c

def feed (afterExpiry : AfterExpiry) (c : Checkpoint) (now : UInt32) : Checkpoint :=
  if c.state = .armed then ({ c with lastFeed := now }.drive .feed).1
  else if c.state = .expired ∧ afterExpiry = .rearm then
    ({ c with lastFeed := now }.drive .rearm).1
  else c

def stop (c : Checkpoint) : Checkpoint × Stop :=
  if c.state = .expiring then (c, .refused) else ((c.drive .stop).1, .stopped)

/-- The checkpoint after a check, and whether its hook is to run. -/
def check (c : Checkpoint) (now : UInt32) : Checkpoint × Bool :=
  if c.state = .armed ∧ elapsed now c.lastFeed c.timeout = true then
    ((c.drive .deadlineExpired).1, (c.drive .deadlineExpired).2 = some .runExpiryHook)
  else (c, false)

def hookDone (c : Checkpoint) : Checkpoint :=
  if c.state = .expiring then (c.drive .hookDone).1 else c

end Checkpoint

structure Supervisor (N : ℕ) where
  checkpoints : Vector Checkpoint N
  afterExpiry : AfterExpiry

namespace Supervisor

variable {N : ℕ} (s : Supervisor N)

def new (afterExpiry : AfterExpiry) : Supervisor N := ⟨Vector.replicate N .new, afterExpiry⟩

/-- A checkpoint is changed in its place; past the last there is none to change. -/
def update (index : ℕ) (f : Checkpoint → Checkpoint) : Supervisor N :=
  { s with checkpoints := s.checkpoints.mapIdx fun i c => if i = index then f c else c }

def start (index : ℕ) (now timeout : UInt32) : Supervisor N × Except StartRefused Unit :=
  if timeout = 0 ∨ maxTimeoutTicks < timeout.toNat then (s, .error .timeoutOutOfRange)
  else if N ≤ index then (s, .error .noSuchCheckpoint)
  else (s.update index (·.start now timeout), .ok ())

def feed (index : ℕ) (now : UInt32) : Supervisor N :=
  s.update index (·.feed s.afterExpiry now)

def stop (index : ℕ) : Supervisor N × Stop :=
  (s.update index fun c => c.stop.1,
    (s.checkpoints[index]?).elim .noSuchCheckpoint fun c => c.stop.2)

/-- The set of the hooks asked for, over the checkpoints in order. -/
def hooks (now : UInt32) : List Checkpoint → ℕ → BitVec 64
  | [], _ => 0
  | c :: checkpoints, index =>
    (if (c.check now).2 then (1 : BitVec 64) <<< index else 0) ||| hooks now checkpoints (index + 1)

def check (now : UInt32) : Supervisor N × Check :=
  ({ s with checkpoints := s.checkpoints.map fun c => (c.check now).1 },
    ⟨hooks now s.checkpoints.toList 0⟩)

def hookDone (index : ℕ) : Supervisor N := s.update index (·.hookDone)

/-- Some checkpoint is armed, and every one is armed or not under watch. -/
def isHealthy : Bool :=
  s.checkpoints.toList.any (·.state = .armed) &&
    s.checkpoints.toList.all fun c => c.state = .armed || c.state = .disarmed

end Supervisor

inductive Op
  | start (index : ℕ) (timeout : UInt32)
  | feed (index : ℕ)
  | stop (index : ℕ)
  | check
  | hookDone (index : ℕ)
  deriving DecidableEq, Repr

/-- A call at an instant, which is passed as its tick count. -/
def Supervisor.apply {N : ℕ} (s : Supervisor N) (call : ℕ × Op) : Supervisor N :=
  let now := UInt32.ofNat call.1
  match call.2 with
  | .start index timeout => (s.start index now timeout).1
  | .feed index => s.feed index now
  | .stop index => (s.stop index).1
  | .check => (s.check now).1
  | .hookDone index => s.hookDone index

end WatchingZenoh.Supervisor
