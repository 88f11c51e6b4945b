import WatchingZenoh.ByteLog
import WatchingZenoh.Library.Words

/-! TCP reassembly of one direction: segments in, a byte stream out. A segment ahead of the stream is
held; a segment that starts at or before the next byte gives its new tail to the stream, as a run
whose bytes the assembler keeps or reads from the capture container; and a gap that stays open too
long is stepped over, which is recorded as a splice. -/

namespace WatchingZenoh.Tcp

open Words

/-- Where a run's bytes are: in the assembler's own log, or in the container its holder lends. -/
inductive Place
  | kept (pos : ℕ)
  | container (pos : ℕ)
  deriving DecidableEq, Repr

structure Run where
  streamOffset : ℕ
  place : Place
  packetIndex : ℕ
  atNs : Option ℕ
  len : ℕ
  segmentOffset : ℕ
  deriving DecidableEq, Repr

def Run.stop (r : Run) : ℕ := r.streamOffset + r.len

structure Row where
  streamOffset : ℕ
  place : Place
  packetIndex : ℕ
  atNs : Option ℕ
  deriving DecidableEq, Repr

/-- The run map: the rows in stream order, one past the last run's last byte, and the offsets in their
segments of the runs that do not begin there. -/
structure RunMap where
  log : List Row
  stop : ℕ
  skipped : List (ℕ × ℕ)

namespace RunMap

def empty : RunMap := ⟨[], 0, []⟩

/-- The run a row is, given where the next one begins. -/
def run (m : RunMap) (row : Row) (next : ℕ) : Run where
  streamOffset := row.streamOffset
  place := row.place
  packetIndex := row.packetIndex
  atNs := row.atNs
  len := min (next - row.streamOffset) (2 ^ 32 - 1)
  segmentOffset := ((m.skipped.find? (·.1 = row.streamOffset)).map Prod.snd).getD 0

def endOf (m : RunMap) (index : ℕ) : ℕ := ((m.log[index + 1]?).map Row.streamOffset).getD m.stop

def pushBack (m : RunMap) (run : Run) : RunMap where
  log := m.log ++ [⟨run.streamOffset, run.place, run.packetIndex, run.atNs⟩]
  stop := run.streamOffset + run.len
  skipped := if run.segmentOffset ≠ 0 then m.skipped ++ [(run.streamOffset, run.segmentOffset)]
    else m.skipped

def get (m : RunMap) (index : ℕ) : Option Run := (m.log[index]?).map fun row =>
  m.run row (m.endOf index)

def popFront (m : RunMap) : RunMap where
  log := m.log.tail
  stop := m.stop
  skipped := if m.skipped.head?.any fun s => (m.log.head?.any fun row => s.1 = row.streamOffset)
    then m.skipped.tail else m.skipped

/-- The place of the run that holds the byte at an offset, or the number of runs. -/
def firstEndingAfter (m : RunMap) (offset : ℕ) : ℕ :=
  let begun := (m.log.takeWhile (·.streamOffset ≤ offset)).length
  match begun with
  | 0 => begun
  | last + 1 =>
    if offset < ((m.log[begun]?).map Row.streamOffset).getD m.stop then last else begun

def iterFrom (m : RunMap) (index : ℕ) : List Run :=
  (List.range' index (m.log.length - index)).filterMap m.get

end RunMap

inductive PayloadAt
  | here
  | container (pos : ℕ)

/-- A payload: its bytes, or where the lent container holds them. -/
inductive Payload
  | here (bytes : Bytes)
  | container (pos len : ℕ)

def Payload.len : Payload → ℕ
  | .here bytes => bytes.length
  | .container _ len => len

structure HeldSegment where
  seq : UInt32
  packetIndex : ℕ
  payload : Payload
  heldAt : ℕ
  atNs : Option ℕ

inductive SegmentOutcome
  | appended (len streamOffset : ℕ)
  | duplicate
  | heldOutOfOrder
  | noPayload
  deriving DecidableEq, Repr

structure Splice where
  atOffset : ℕ
  bytesMissing : ℕ
  deriving DecidableEq, Repr

structure Segment where
  seq : UInt32
  syn : Bool
  fin : Bool
  rst : Bool
  payload : Bytes
  packetIndex : ℕ

structure StreamAssembler where
  nextSeq : Option UInt32
  syncedFromSyn : Bool
  kept : ByteLog
  stop : ℕ
  discarded : ℕ
  runs : RunMap
  pending : List HeldSegment
  finSeen : Bool
  rstSeen : Bool
  retransmits : ℕ
  outOfOrder : ℕ
  partialOverlaps : ℕ
  segmentsPushed : ℕ
  gapsForced : ℕ
  bytesMissing : ℕ
  gapPatience : Option ℕ
  splices : List Splice

namespace StreamAssembler

def defaultGapPatience : ℕ := 64

def new : StreamAssembler where
  nextSeq := none
  syncedFromSyn := false
  kept := .empty
  stop := 0
  discarded := 0
  runs := .empty
  pending := []
  finSeen := false
  rstSeen := false
  retransmits := 0
  outOfOrder := 0
  partialOverlaps := 0
  segmentsPushed := 0
  gapsForced := 0
  bytesMissing := 0
  gapPatience := some defaultGapPatience
  splices := []

variable (s : StreamAssembler)

def withGapPatience (patience : Option ℕ) : StreamAssembler := { s with gapPatience := patience }

def delta (seq next : UInt32) : ℤ := signed (seq - next)

/-- The held segment nearest ahead of `next`. -/
def lowestPending (next : UInt32) : Option UInt32 :=
  ((s.pending.map (·.seq)).filter fun seq => delta seq next > 0).argmin fun seq =>
    (seq - next).toNat

/-- Absorb a payload against the next sequence number. -/
def absorb (next seq : UInt32) (payload : Payload) (packetIndex : ℕ) (atNs : Option ℕ) :
    StreamAssembler × SegmentOutcome :=
  if delta seq next > 0 then
    ({ s with pending := s.pending ++ [⟨seq, packetIndex, payload, s.segmentsPushed, atNs⟩] },
      .heldOutOfOrder)
  else
    let already := (delta seq next).natAbs
    if already ≥ payload.len then (s, .duplicate)
    else
      let fresh := payload.len - already
      let (kept, place) := match payload with
        | .here bytes =>
          let (kept, pos) := s.kept.append (bytes.drop already)
          (kept, Place.kept pos)
        | .container pos _ => (s.kept, Place.container (pos + already))
      let run : Run := ⟨s.stop, place, packetIndex, atNs, min fresh (2 ^ 32 - 1),
        min already (2 ^ 32 - 1)⟩
      ({ s with
          partialOverlaps := if already > 0 then s.partialOverlaps + 1 else s.partialOverlaps
          kept := kept
          stop := s.stop + fresh
          runs := s.runs.pushBack run
          nextSeq := some (next + .ofNat fresh) },
        .appended fresh s.stop)

/-- Whether a held segment starts at or before the next byte and has a new one. -/
def ready (next : UInt32) (held : HeldSegment) : Bool :=
  delta held.seq next ≤ 0 && decide ((-delta held.seq next).toNat < held.payload.len)

/-- The loop of `drain_pending`; every turn takes a segment out of the held ones, so that their number
is enough fuel. -/
def drainLoop : ℕ → StreamAssembler → StreamAssembler
  | 0, s => s
  | fuel + 1, s =>
    match s.nextSeq with
    | none => s
    | some next =>
      match s.pending.findIdx? (ready next) with
      | none => s
      | some i =>
        match s.pending[i]? with
        | none => s
        | some held =>
          drainLoop fuel ({ s with pending := s.pending.eraseIdx i }.absorb next held.seq
            held.payload held.packetIndex held.atNs).1

def drainPending : StreamAssembler := drainLoop s.pending.length s

def forceOldestGap : StreamAssembler × Option ℕ :=
  match s.nextSeq with
  | none => (s, none)
  | some next =>
    match s.lowestPending next with
    | none => (s, none)
    | some target =>
      let missing := (target - next).toNat
      (drainPending { s with
        nextSeq := some target
        gapsForced := s.gapsForced + 1
        bytesMissing := s.bytesMissing + missing
        splices := s.splices ++ [⟨s.stop, missing⟩] }, some missing)

def forceStaleGap : StreamAssembler :=
  match s.gapPatience, s.nextSeq with
  | some patience, some next =>
    match ((s.pending.filter fun held => delta held.seq next > 0).map (·.heldAt)).min? with
    | none => s
    | some heldAt =>
      if s.segmentsPushed - heldAt < patience then s else s.forceOldestGap.1
  | _, _ => s

/-- The flags of a segment; only an unsynchronised stream takes its origin from a SYN. -/
def noteFlags (seg : Segment) : StreamAssembler :=
  let s := if seg.rst then { s with rstSeen := true } else s
  let s := if seg.syn ∧ s.nextSeq = none then
    { s with nextSeq := some (seg.seq + 1), syncedFromSyn := true } else s
  if seg.fin then { s with finSeen := true } else s

def count (outcome : SegmentOutcome) : StreamAssembler :=
  match outcome with
  | .duplicate => { s with retransmits := s.retransmits + 1 }
  | .heldOutOfOrder => { s with outOfOrder := s.outOfOrder + 1 }
  | _ => s

def pushLocated (seg : Segment) (atNs : Option ℕ) (located : PayloadAt) :
    StreamAssembler × SegmentOutcome :=
  let s := s.noteFlags seg
  if seg.payload.isEmpty then (s, .noPayload)
  else
    -- Without a SYN the stream begins at the first data byte seen.
    let next := s.nextSeq.getD seg.seq
    let s := { s with segmentsPushed := s.segmentsPushed + 1, nextSeq := some next }
    let payload := match located with
      | .here => Payload.here seg.payload
      | .container pos => .container pos seg.payload.length
    let (s, outcome) := s.absorb next seg.seq payload seg.packetIndex atNs
    ((s.count outcome).drainPending.forceStaleGap, outcome)

/-- The runs wholly behind the base go, oldest first. -/
def dropRuns (base : ℕ) : ℕ → RunMap → RunMap
  | 0, m => m
  | fuel + 1, m =>
    match m.get 0 with
    | some r => if r.stop ≤ base then dropRuns base fuel m.popFront else m
    | none => m

/-- From where the kept bytes are still read: the first retained run the assembler keeps. -/
def keptBase (base : ℕ) (m : RunMap) : Option ℕ :=
  (m.iterFrom 0).findSome? fun r =>
    match r.place with
    | .kept pos => some (pos + (base - r.streamOffset))
    | .container _ => none

/-- With no kept run every kept byte goes: the release is then at the largest position. -/
def trim (keep : ℕ) : StreamAssembler × ℕ :=
  let retained := s.stop - s.discarded
  if retained ≤ keep then (s, 0)
  else
    let cut := retained - keep
    let base := s.discarded + cut
    let runs := dropRuns base s.runs.log.length s.runs
    ({ s with
        discarded := base
        runs := runs
        kept := s.kept.releaseBefore ((keptBase base runs).getD (2 ^ 64 - 1)) }, cut)

/-- Bytes `start..stop` of a run, counted from its first byte. -/
def runBytes (container : Option Bytes) (r : Run) (start stop : ℕ) : Option Bytes :=
  match r.place with
  | .kept pos => s.kept.get (pos + start) (stop - start)
  | .container pos => container.bind fun c => sliceGet c (pos + start) (pos + stop)

/-- The bytes gathered from the runs; a run that begins past the place wanted answers nothing. -/
def gather (container : Option Bytes) (upto : ℕ) : List Run → ℕ → Bytes → Option Bytes
  | [], _, _ => none
  | r :: rest, pos, gathered =>
    if pos < r.streamOffset then none
    else do
      let stop := min r.stop upto - r.streamOffset
      let piece ← s.runBytes container r (pos - r.streamOffset) stop
      let pos := r.streamOffset + stop
      if pos = upto then some (gathered ++ piece)
      else gather container upto rest pos (gathered ++ piece)

/-- The reassembled bytes of a range, where all of them are retained. -/
def bytes (start upto : ℕ) (container : Option Bytes) : Option Bytes :=
  if start < s.discarded ∨ upto > s.stop ∨ start > upto then none
  else if start = upto then some []
  else s.gather container upto (s.runs.iterFrom (s.runs.firstEndingAfter start)) start []

end StreamAssembler

end WatchingZenoh.Tcp
