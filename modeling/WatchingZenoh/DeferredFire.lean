import Mathlib

/-! The callback slot of one listener, fired through by any number of threads. A call takes a ticket
where it is accepted; the thread that reaches the cell in its turn takes the callback out, runs the call
with the cell unlocked and serves what was parked meanwhile. A step is one window of the cell's lock with
the unlocked code behind it; a call that runs takes as long as other steps are taken before its own next
one, and what it does to the cell from inside is steps of other threads. -/

namespace WatchingZenoh.DeferredFire

variable {F : Type}

/-- A call made through a ticket: a plain one, the cell's last one, or the empty one of a ticket that
was dropped. -/
inductive Call (F : Type)
  | plain (f : F → F)
  | last (f : F → F)
  | empty

namespace Call

def effect : Call F → F → F
  | .plain f => f
  | .last f => f
  | .empty => id

def real : Call F → Bool
  | .plain _ => true
  | .last _ => true
  | .empty => false

end Call

structure CellState (F : Type) where
  callback : Option F
  dead : Bool
  issued : ℕ
  next : ℕ
  parked : List (ℕ × Call F)

namespace CellState

def new (callback : F) : CellState F := ⟨some callback, false, 0, 0, []⟩

def kill (s : CellState F) : CellState F := { s with dead := true, callback := none, parked := [] }

def park (s : CellState F) (number : ℕ) (call : Call F) : CellState F :=
  { s with parked := (number, call) :: s.parked.filter (·.1 ≠ number) }

def parkedAt (s : CellState F) (number : ℕ) : Option (Call F) :=
  (s.parked.find? (·.1 = number)).map Prod.snd

def unpark (s : CellState F) (number : ℕ) : CellState F :=
  { s with parked := s.parked.filter (·.1 ≠ number) }

end CellState

/-- A thread on its way to the cell: at the first window of `run_call`, or at that of `run_ticket`. -/
inductive Arrival (F : Type)
  | call (number : ℕ) (f : F → F)
  | ticket (number : ℕ) (call : Call F)

def Arrival.number : Arrival F → ℕ
  | .call number _ => number
  | .ticket number _ => number

def Arrival.made : Arrival F → Call F
  | .call _ f => .plain f
  | .ticket _ made => made

/-- A thread that has the callback: running the call it came with, at the window of `run_parked`, or
running a parked call. -/
inductive Runner (F : Type)
  | mine (number : ℕ) (f : F → F) (slot : F)
  | loop (slot : F)
  | serving (number : ℕ) (call : Call F) (slot : F)

inductive Event
  | began (number : ℕ)
  | ended (number : ℕ)
deriving DecidableEq

/-- The cell, the tickets that are held, the threads inside it, and what was seen: the call each ticket
was used for and when the calls began and ended. -/
structure System (F : Type) where
  cell : CellState F
  held : List ℕ
  arriving : List (Arrival F)
  runners : List (Runner F)
  used : ℕ → Option (Call F)
  log : List Event

inductive Op (F : Type)
  | ticket
  | invoke (number : ℕ) (f : F → F)
  | invokeLast (number : ℕ) (f : F → F)
  | drop (number : ℕ)
  | kill
  | arrive (thread : ℕ)
  | advance (thread : ℕ)

namespace System

def new (callback : F) : System F := ⟨.new callback, [], [], [], fun _ => none, []⟩

/-- A ticket is used, by the thread that holds it and once. -/
def use (s : System F) (number : ℕ) (call : Call F) (arrival : Arrival F) : System F :=
  if number ∈ s.held then
    { s with
      held := s.held.erase number
      arriving := s.arriving ++ [arrival]
      used := fun k => if k = number then some call else s.used k }
  else s

/-- The window of `run_ticket`. -/
def runTicket (s : System F) (thread number : ℕ) (call : Call F) : System F :=
  let s := { s with arriving := s.arriving.eraseIdx thread }
  if s.cell.dead then s
  else
    let cell := s.cell.park number call
    if (cell.parkedAt cell.next).isSome then
      match cell.callback with
      | some slot => { s with
          cell := { cell with callback := none }
          runners := s.runners ++ [.loop slot] }
      | none => { s with cell := cell }
    else { s with cell := cell }

/-- The first window of `run_call`. -/
def runCall (s : System F) (thread number : ℕ) (f : F → F) : System F :=
  if s.cell.dead then { s with arriving := s.arriving.eraseIdx thread }
  else if s.cell.next = number then
    match s.cell.callback with
    | some slot => { s with
        cell := { s.cell with callback := none }
        arriving := s.arriving.eraseIdx thread
        runners := s.runners ++ [.mine number f slot]
        log := s.log ++ [.began number] }
    | none => { s with arriving := s.arriving.set thread (.ticket number (.plain f)) }
  else { s with arriving := s.arriving.set thread (.ticket number (.plain f)) }

/-- One turn of `run_parked`. -/
def runParked (s : System F) (thread : ℕ) (slot : F) : System F :=
  if s.cell.dead then { s with
    cell := { s.cell with parked := [] }
    runners := s.runners.eraseIdx thread }
  else
    let turn := s.cell.next
    match s.cell.parkedAt turn with
    | some call => { s with
        cell := { s.cell.unpark turn with next := turn + 1 }
        runners := s.runners.set thread (.serving turn call slot)
        log := s.log ++ if call.real then [.began turn] else [] }
    | none => { s with
        cell := { s.cell with callback := some slot }
        runners := s.runners.eraseIdx thread }

def step (s : System F) : Op F → System F
  | .ticket => { s with
      cell := { s.cell with issued := s.cell.issued + 1 }
      held := s.held ++ [s.cell.issued] }
  | .invoke number f => s.use number (.plain f) (.call number f)
  | .invokeLast number f => s.use number (.last f) (.ticket number (.last f))
  | .drop number => s.use number .empty (.ticket number .empty)
  | .kill => { s with cell := s.cell.kill }
  | .arrive thread =>
    match s.arriving[thread]? with
    | some (.call number f) => s.runCall thread number f
    | some (.ticket number call) => s.runTicket thread number call
    | none => s
  | .advance thread =>
    match s.runners[thread]? with
    | some (.mine number f slot) => { s with
        cell := { s.cell with next := if s.cell.dead then s.cell.next else s.cell.next + 1 }
        runners := s.runners.set thread (.loop (f slot))
        log := s.log ++ [.ended number] }
    | some (.serving number (.plain f) slot) => { s with
        runners := s.runners.set thread (.loop (f slot))
        log := s.log ++ [.ended number] }
    | some (.serving number (.last f) slot) => { s with
        cell := { s.cell with dead := true, parked := [] }
        runners := s.runners.set thread (.loop (f slot))
        log := s.log ++ [.ended number] }
    | some (.serving _ .empty slot) => { s with runners := s.runners.set thread (.loop slot) }
    | some (.loop slot) => s.runParked thread slot
    | none => s

def run (callback : F) (ops : List (Op F)) : System F := ops.foldl step (new callback)

end System

end WatchingZenoh.DeferredFire
