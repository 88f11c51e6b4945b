import WatchingZenoh.Library.KeyedRows

/-! The peers a host holds, each with its connection machine, and the host's bookkeeping for them:
the dials under way, the face each session is held as, the retry timers that are still armed, and the
node each peer's last session reached. A machine asks things of the host as duties, and performing
one may report an event that raises the next. -/

namespace WatchingZenoh.PeerPlanner

open KeyedRows

abbrev DirectoryZid := Vector UInt8 16

inductive PeerConnectionState
  | idle
  | resolving
  | connecting
  | established
  | passive
  | passiveUp
  | backoff
  | noLocator
  | noSlot
  | identityMismatch
  | authorityRefused
  deriving DecidableEq, Repr

inductive PeerConnectionEvent
  | manualStart
  | manualStartPassive
  | manualRefused
  | manualStop
  | inboundEstablished
  | resolveFound
  | resolveEmpty
  | dialEstablished
  | dialFailed
  | dialNoSlot
  | dialMismatch
  | sessionLost
  | retryDue
  deriving DecidableEq, Repr

/-- What the host is asked to do for a peer after an event. -/
structure PeerDuties where
  resolve : Bool := false
  dial : Bool := false
  armRetry : Bool := false
  cancelRetry : Bool := false
  abandonDial : Bool := false
  closeSession : Bool := false
  resetRetry : Bool := false
  deriving DecidableEq, Repr

def PeerDuties.isEmpty (d : PeerDuties) : Bool := decide (d = {})

def PeerDuties.join (d e : PeerDuties) : PeerDuties where
  resolve := d.resolve || e.resolve
  dial := d.dial || e.dial
  armRetry := d.armRetry || e.armRetry
  cancelRetry := d.cancelRetry || e.cancelRetry
  abandonDial := d.abandonDial || e.abandonDial
  closeSession := d.closeSession || e.closeSession
  resetRetry := d.resetRetry || e.resetRetry

namespace PeerConnectionState

def inIntent (s : PeerConnectionState) : Bool := decide (s ≠ idle)

def onEntry : PeerConnectionState → PeerDuties
  | resolving => { resolve := true }
  | connecting => { dial := true }
  | established => { resetRetry := true }
  | backoff => { armRetry := true }
  | _ => {}

/-- A transition of the four refusals, which share their parent's. -/
def refusedTransition : PeerConnectionEvent → Option (PeerConnectionState × PeerDuties)
  | .manualStart => some (resolving, {})
  | .manualStartPassive => some (passive, {})
  | .manualRefused => some (authorityRefused, {})
  | .manualStop => some (idle, {})
  | _ => none

/-- The target of a transition and the duty on its way. -/
def transition : PeerConnectionState → PeerConnectionEvent →
    Option (PeerConnectionState × PeerDuties)
  | idle, .manualStart => some (resolving, {})
  | idle, .manualStartPassive => some (passive, {})
  | idle, .manualRefused => some (authorityRefused, {})
  | passive, .inboundEstablished => some (passiveUp, {})
  | passive, .manualStart => some (resolving, {})
  | passive, .manualStop => some (idle, {})
  | passiveUp, .sessionLost => some (passive, {})
  | passiveUp, .manualStart => some (established, {})
  | passiveUp, .manualStop => some (idle, { closeSession := true })
  | resolving, .resolveFound => some (connecting, {})
  | resolving, .resolveEmpty => some (noLocator, {})
  | resolving, .manualStop => some (idle, { abandonDial := true })
  | connecting, .dialEstablished => some (established, {})
  | connecting, .dialFailed => some (backoff, {})
  | connecting, .dialNoSlot => some (noSlot, {})
  | connecting, .dialMismatch => some (identityMismatch, {})
  | connecting, .manualStop => some (idle, { abandonDial := true })
  | established, .sessionLost => some (backoff, {})
  | established, .manualStop => some (idle, { closeSession := true })
  | backoff, .retryDue => some (resolving, {})
  | backoff, .manualStop => some (idle, { cancelRetry := true })
  | noLocator, e => refusedTransition e
  | noSlot, e => refusedTransition e
  | identityMismatch, e => refusedTransition e
  | authorityRefused, e => refusedTransition e
  | _, _ => none

/-- An event the state has no transition for changes nothing and asks for nothing. -/
def drive (s : PeerConnectionState) (e : PeerConnectionEvent) : PeerConnectionState × PeerDuties :=
  (s.transition e).elim (s, {}) fun t => (t.1, t.2.join t.1.onEntry)

end PeerConnectionState

/-- What a dial is while it runs: wanted by its peer, not wanted any more, or owned by no machine. -/
inductive DialState (K : Type)
  | running (key : K)
  | abandoned
  | released
  deriving DecidableEq

structure PeerPlanner (K I : Type) where
  entries : List (K × PeerConnectionState)
  refused : ℕ
  dials : List (I × DialState K)
  held : List (K × I)
  armed : List (K × ℕ)
  remotes : List (K × DirectoryZid)
  nextGeneration : ℕ

def PeerPlanner.new (K I : Type) : PeerPlanner K I := ⟨[], 0, [], [], [], [], 0⟩

inductive PeerAction (K I T : Type)
  | dial (id : I) (key : K) (target : T)
  | retry (key : K) (generation afterMs : ℕ) (afterLoss : Bool)
  | close (id : I)

inductive DialEnd (I : Type)
  | established (remote : Option DirectoryZid)
  | alreadyHeld (held : I) (remote : Option DirectoryZid)
  | noSlot
  | mismatch
  | failed

/-- What the host answers, which may depend on and change anything of its own. -/
structure PeerPorts (K T σ : Type) where
  dialable : σ → K → Option T × σ
  retryWaitMs : σ → K → ℕ × σ
  retryRestart : σ → K → σ

/-- A planner at work: with the host's answers, the counter the host lends it for face ids, and the
actions it has asked for in this call. -/
structure Desk (K I T σ : Type) where
  planner : PeerPlanner K I
  ports : σ
  nextId : ℕ
  actions : List (PeerAction K I T)

section Planner

variable {K I T σ : Type} [LinearOrder K] [DecidableEq I]

/-- The bounds on peers and dials, the faces the counter names, no two alike, and the host. -/
structure Setting (K I T σ : Type) where
  N : ℕ
  D : ℕ
  face : ℕ → I
  face_injective : Function.Injective face
  host : PeerPorts K T σ

namespace PeerPlanner

def state (p : PeerPlanner K I) (key : K) : Option PeerConnectionState := row p.entries key

end PeerPlanner

namespace Setting

variable (S : Setting K I T σ)

/-- What came of a duty is reported to a machine; a peer the table does not hold is not taken in. -/
def report (p : PeerPlanner K I) (key : K) (e : PeerConnectionEvent) :
    PeerPlanner K I × PeerDuties :=
  (p.state key).elim (p, {}) fun s =>
    ({ p with entries := (setRow S.N p.entries key (s.drive e).1).1 }, (s.drive e).2)

/-- An entry for a new peer: a free one, or one whose peer is idle. -/
def takeEntry (p : PeerPlanner K I) (key : K) : Option (PeerPlanner K I) :=
  if S.N ≤ p.entries.length then
    (p.entries.findIdx? fun e => !e.2.inIntent).map fun i =>
      { p with entries := swapRemove p.entries i ++ [(key, .idle)] }
  else some { p with entries := p.entries ++ [(key, .idle)] }

def enter (p : PeerPlanner K I) (key : K) : Option (PeerPlanner K I) :=
  if p.state key ≠ none then some p else S.takeEntry p key

def hold (p : PeerPlanner K I) (key : K) (face : I) : PeerPlanner K I :=
  { p with held := (setRow S.N p.held key face).1 }

def learnRemote (p : PeerPlanner K I) (key : K) (remote : Option DirectoryZid) : PeerPlanner K I :=
  remote.elim p fun z => { p with remotes := (setRow S.N p.remotes key z).1 }

end Setting

def markDials (key : K) (mark : DialState K) (dials : List (I × DialState K)) :
    List (I × DialState K) :=
  dials.map fun d => if d.2 = .running key then (d.1, mark) else d

namespace Setting

variable (S : Setting K I T σ)

/-- The duties that end something: a wait, a dial, a session. -/
def performEnds (key : K) (d : PeerDuties) (s : Desk K I T σ) : Desk K I T σ :=
  let s := if d.resetRetry || d.cancelRetry then { s with ports := S.host.retryRestart s.ports key }
    else s
  let s := if d.cancelRetry
    then { s with planner := { s.planner with armed := dropRow s.planner.armed key } } else s
  let s := if d.abandonDial
    then { s with planner := { s.planner with dials := markDials key .abandoned s.planner.dials } }
    else s
  if d.closeSession then
    (row s.planner.held key).elim s fun id =>
      { s with
        planner := { s.planner with held := dropRow s.planner.held key }
        actions := s.actions ++ [.close id] }
  else s

def performArm (key : K) (d : PeerDuties) (lost : Bool) (s : Desk K I T σ) : Desk K I T σ :=
  if d.armRetry then
    let wait := S.host.retryWaitMs s.ports key
    let generation := s.planner.nextGeneration
    { s with
      ports := wait.2
      planner := { s.planner with
        nextGeneration := generation + 1
        armed := (setRow S.N s.planner.armed key generation).1 }
      actions := s.actions ++ [.retry key generation wait.1 lost] }
  else s

def reportTo (key : K) (e : PeerConnectionEvent) (s : Desk K I T σ) : Desk K I T σ × PeerDuties :=
  ({ s with planner := (S.report s.planner key e).1 }, (S.report s.planner key e).2)

/-- The host resolves or dials the peer, and what came of it may ask for more. -/
def performReach (key : K) (d : PeerDuties) (s : Desk K I T σ) : Desk K I T σ × PeerDuties :=
  if d.resolve then
    let found := S.host.dialable s.ports key
    S.reportTo key (if found.1.isSome then .resolveFound else .resolveEmpty)
      { s with ports := found.2 }
  else if d.dial then
    let found := S.host.dialable s.ports key
    let s := { s with ports := found.2 }
    match found.1 with
    | some target =>
      if s.planner.dials.length < S.D then
        ({ s with
            planner := { s.planner with
              dials := s.planner.dials ++ [(S.face s.nextId, .running key)] }
            nextId := s.nextId + 1
            actions := s.actions ++ [.dial (S.face s.nextId) key target] }, {})
      else S.reportTo key .dialNoSlot s
    | none => S.reportTo key .dialFailed s
  else (s, {})

/-- One round of duties, with the duties its reports raise. -/
def performRound (key : K) (d : PeerDuties) (lost : Bool) (s : Desk K I T σ) :
    Desk K I T σ × PeerDuties :=
  S.performReach key d (S.performArm key d lost (S.performEnds key d s))

/-- The duties of a peer, and those each answer raises in turn, in at most `fuel` rounds. -/
def perform (fuel : ℕ) (key : K) (d : PeerDuties) (lost : Bool) (s : Desk K I T σ) :
    Option (Desk K I T σ) :=
  if d.isEmpty then some s
  else
    match fuel with
    | 0 => none
    | fuel + 1 =>
      let r := S.performRound key d lost s
      perform fuel key r.2 lost r.1

/-- An event is reported and its duties performed. -/
def deliver (fuel : ℕ) (key : K) (e : PeerConnectionEvent) (lost : Bool) (s : Desk K I T σ) :
    Option (Desk K I T σ) :=
  S.perform fuel key (S.reportTo key e s).2 lost (S.reportTo key e s).1

/-- An `open`, active or passive: the answer is whether the table had room. -/
def openWith (fuel : ℕ) (key : K) (e : PeerConnectionEvent) (s : Desk K I T σ) :
    Option (Desk K I T σ × Bool) :=
  match S.enter s.planner key with
  | none => some ({ s with planner := { s.planner with refused := s.planner.refused + 1 } }, false)
  | some p => (S.deliver fuel key e false { s with planner := p }).map (·, true)

def open_ (fuel : ℕ) (key : K) (s : Desk K I T σ) : Option (Desk K I T σ × Bool) :=
  S.openWith fuel key .manualStart s

def openPassive (fuel : ℕ) (key : K) (s : Desk K I T σ) : Option (Desk K I T σ × Bool) :=
  S.openWith fuel key .manualStartPassive s

def inboundUp (fuel : ℕ) (key : K) (id : I) (s : Desk K I T σ) : Option (Desk K I T σ × Bool) :=
  if s.planner.state key = some .passive then
    (S.deliver fuel key .inboundEstablished false { s with planner := S.hold s.planner key id }).map
      (·, true)
  else some (s, false)

def inboundDown (fuel : ℕ) (key : K) (s : Desk K I T σ) : Option (Desk K I T σ × Bool) :=
  if s.planner.state key = some .passiveUp then
    (S.deliver fuel key .sessionLost false
      { s with planner := { s.planner with held := dropRow s.planner.held key } }).map (·, true)
  else some (s, false)

def retryDue (fuel : ℕ) (key : K) (generation : ℕ) (s : Desk K I T σ) : Option (Desk K I T σ) :=
  if row s.planner.armed key = some generation then
    S.deliver fuel key .retryDue false
      { s with planner := { s.planner with armed := dropRow s.planner.armed key } }
  else some s

/-- What the end of a dial its peer wants does, the event it is to the machine, and whether the host
is to hold the face. -/
def takeEnd (id : I) (key : K) (p : PeerPlanner K I) :
    DialEnd I → PeerPlanner K I × PeerConnectionEvent × Bool
  | .established remote => (S.learnRemote (S.hold p key id) key remote, .dialEstablished, true)
  | .alreadyHeld held remote => (S.learnRemote (S.hold p key held) key remote, .dialEstablished, false)
  | .noSlot => (p, .dialNoSlot, false)
  | .mismatch => (p, .dialMismatch, false)
  | .failed => (p, .dialFailed, false)

def DialEnd.isEstablished : DialEnd I → Bool
  | .established _ => true
  | _ => false

/-- `none` answers a face that is no dial of the planner's. -/
def dialEnded (fuel : ℕ) (id : I) (dialEnd : DialEnd I) (s : Desk K I T σ) :
    Option (Desk K I T σ × Option Bool) :=
  match s.planner.dials.findIdx? (·.1 = id) with
  | none => some (s, none)
  | some i =>
    let p := { s.planner with dials := swapRemove s.planner.dials i }
    match (s.planner.dials[i]?).map Prod.snd with
    | some (.running key) =>
      let taken := S.takeEnd id key p dialEnd
      (S.deliver fuel key taken.2.1 false { s with planner := taken.1 }).map (·, some taken.2.2)
    | some .released => some ({ s with planner := p }, some (DialEnd.isEstablished dialEnd))
    | _ => some ({ s with planner := p }, some false)

/-- The peers whose session is held as this face, in their order. -/
def heldBy (p : PeerPlanner K I) (id : I) : List K :=
  (((p.held.filter (·.2 = id)).map Prod.fst).take S.N).mergeSort (· ≤ ·)

def faceDown (fuel : ℕ) (id : I) (s : Desk K I T σ) : Option (Desk K I T σ × Bool) :=
  let lost := S.heldBy s.planner id
  if lost.isEmpty then some (s, false)
  else
    (lost.foldlM (fun s key => S.deliver fuel key .sessionLost true s)
      { s with planner := { s.planner with held := s.planner.held.filter (·.2 ≠ id) } }).map (·, true)

def stop (fuel : ℕ) (key : K) (s : Desk K I T σ) : Option (Desk K I T σ) :=
  S.deliver fuel key .manualStop false s

/-- The peers a `close` of a node stops: those whose last session reached it, and its own where the
vector has room for it. -/
def reaching (p : PeerPlanner K I) (zid : DirectoryZid) (node : K) : List K :=
  let keys := (((p.remotes.filter fun r => r.2 = zid ∧ r.1 ≠ node).map Prod.fst).take S.N).mergeSort
    (· ≤ ·)
  if keys.length < S.N then keys ++ [node] else keys

def withdraw (fuel : ℕ) (zid : DirectoryZid) (node : K) (s : Desk K I T σ) :
    Option (Desk K I T σ) :=
  (S.reaching s.planner zid node).foldlM (fun s key => S.stop fuel key s) s

end Setting

/-- A peer leaves the table asking for nothing; a session it has stands. -/
def PeerPlanner.forget (p : PeerPlanner K I) (key : K) : PeerPlanner K I :=
  { p with
    entries := dropRow p.entries key
    armed := dropRow p.armed key
    remotes := dropRow p.remotes key
    dials := markDials key .released p.dials
    held := dropRow p.held key }

end Planner

end WatchingZenoh.PeerPlanner
