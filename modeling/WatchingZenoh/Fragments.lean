import Mathlib
import WatchingZenoh.Library.MergedRuns

/-! IP fragment reassembly, v4 and v6 through one table. A piece is placed in the datagram its key
names: the first bytes written stay, an overlap with other bytes is marked, and the datagram leaves
the table once one run covers all of its declared length. The table abandons datagrams past their
deadline and evicts the oldest one when it is full. -/

namespace WatchingZenoh.Fragments

open MergedRuns (Stretch)
open Std (ExtTreeMap)

structure Endpoint where
  addr : Vector UInt8 16
  addrLen : UInt8
  port : UInt32
  deriving DecidableEq

structure FragmentKey where
  src : Endpoint
  dst : Endpoint
  proto : UInt8
  ident : UInt32
  deriving DecidableEq

def Endpoint.fields (e : Endpoint) : List ℕ :=
  e.addr.toList.map UInt8.toNat ++ [e.addrLen.toNat, e.port.toNat]

def FragmentKey.fields (k : FragmentKey) : List ℕ :=
  k.src.fields ++ (k.dst.fields ++ [k.proto.toNat, k.ident.toNat])

theorem Endpoint.fields_injective : Function.Injective Endpoint.fields := by
  rintro ⟨addr, len, port⟩ ⟨addr', len', port'⟩ h
  simp only [Endpoint.fields] at h
  obtain ⟨haddr, hrest⟩ := List.append_inj h (by simp)
  have hinj : Function.Injective UInt8.toNat := fun a b => UInt8.toNat_inj.mp
  have hlist : addr.toList = addr'.toList := List.map_injective_iff.mpr hinj haddr
  rw [List.cons.injEq, List.singleton_inj, UInt8.toNat_inj, UInt32.toNat_inj] at hrest
  rw [Vector.toList_inj.mp hlist, hrest.1, hrest.2]

theorem Endpoint.length_fields (e : Endpoint) : e.fields.length = 18 := by
  simp [Endpoint.fields]

theorem FragmentKey.fields_injective : Function.Injective FragmentKey.fields := by
  rintro ⟨src, dst, proto, ident⟩ ⟨src', dst', proto', ident'⟩ h
  simp only [FragmentKey.fields] at h
  obtain ⟨hsrc, h⟩ := List.append_inj h (by simp [Endpoint.length_fields])
  obtain ⟨hdst, hrest⟩ := List.append_inj h (by simp [Endpoint.length_fields])
  rw [List.cons.injEq, List.singleton_inj, UInt8.toNat_inj, UInt32.toNat_inj] at hrest
  rw [Endpoint.fields_injective hsrc, Endpoint.fields_injective hdst, hrest.1, hrest.2]

instance instOrdFragmentKey : Ord FragmentKey := ⟨compareOn FragmentKey.fields⟩

instance instTransOrdFragmentKey : Std.TransOrd FragmentKey :=
  inferInstanceAs (Std.TransCmp (compareOn FragmentKey.fields))

instance instLawfulEqOrdFragmentKey : Std.LawfulEqOrd FragmentKey where
  eq_of_compare h := FragmentKey.fields_injective (Std.LawfulEqOrd.eq_of_compare h)

structure TunnelHop where
  src : Endpoint
  dst : Endpoint
  proto : UInt8
  deriving DecidableEq

/-- The carriers a packet arrived inside, outermost first. -/
structure Tunnel where
  hops : List TunnelHop
  deriving DecidableEq

structure FragmentInfo where
  ident : UInt32
  offset : ℕ
  more : Bool
  deriving DecidableEq

structure IpFragment where
  src : Endpoint
  dst : Endpoint
  proto : UInt8
  info : FragmentInfo
  payload : List UInt8
  packetIndex : ℕ
  tunnel : Tunnel
  deriving DecidableEq

def IpFragment.key (piece : IpFragment) : FragmentKey :=
  ⟨piece.src, piece.dst, piece.proto, piece.info.ident⟩

def IpFragment.stop (piece : IpFragment) : ℕ := piece.info.offset + piece.payload.length

/-- The largest datagram IP can express: a 16-bit total length. -/
def maxDatagram : ℕ := 65535

structure Reassembled where
  key : FragmentKey
  payload : List UInt8
  packetIndex : ℕ
  pieces : ℕ
  overlapped : Bool
  tunnel : Tunnel
  deriving DecidableEq

structure FragmentStats where
  pieces : ℕ
  completed : ℕ
  expired : ℕ
  expiredBytes : ℕ
  evicted : ℕ
  evictedBytes : ℕ
  malformed : ℕ
  overlapping : ℕ
  deriving DecidableEq

structure Pending where
  bytes : List UInt8
  runs : List Stretch
  total : Option ℕ
  pieces : ℕ
  overlapped : Bool
  openedAt : Option ℕ
  seq : ℕ
  tunnel : Tunnel
  deriving DecidableEq

namespace Pending

def heldBytes (p : Pending) : ℕ := (p.runs.map fun r => r.2 - r.1).sum

/-- What `place` has written while it walks the runs: up to `pos`. -/
structure Placing where
  bytes : List UInt8
  overlapped : Bool
  pos : ℕ

/-- The bytes of a payload at `offset` that lie from `start` to `stop`. -/
def slice (offset : ℕ) (payload : List UInt8) (start stop : ℕ) : List UInt8 :=
  (payload.drop (start - offset)).take (stop - start)

def Placing.write (s : Placing) (offset : ℕ) (payload : List UInt8) (stop : ℕ) : Placing :=
  { s with
    bytes := s.bytes.take s.pos ++ slice offset payload s.pos stop ++ s.bytes.drop stop
    pos := stop }

def Placing.compare (s : Placing) (offset : ℕ) (payload : List UInt8) (stop : ℕ) : Placing :=
  { s with
    overlapped := s.overlapped ||
      decide ((s.bytes.drop s.pos).take (stop - s.pos) ≠ slice offset payload s.pos stop)
    pos := stop }

/-- The gap before a run is written, and what the run covers already is compared. -/
def Placing.pass (s : Placing) (offset : ℕ) (payload : List UInt8) (stop : ℕ) (run : Stretch) :
    Placing :=
  let s := if s.pos < run.1 then s.write offset payload (min run.1 stop) else s
  if s.pos < min run.2 stop then s.compare offset payload (min run.2 stop) else s

def Placing.finish (s : Placing) (offset : ℕ) (payload : List UInt8) (stop : ℕ) : Placing :=
  if s.pos < stop then s.write offset payload stop else s

/-- The walk over the runs, and the bytes behind the last of them. -/
def Placing.walk (offset : ℕ) (payload : List UInt8) (stop : ℕ) : List Stretch → Placing → Placing
  | [], s => s.finish offset payload stop
  | run :: runs, s =>
    if run.2 ≤ s.pos then walk offset payload stop runs s
    else if stop ≤ run.1 then s.finish offset payload stop
    else if stop ≤ (s.pass offset payload stop run).pos then
      (s.pass offset payload stop run).finish offset payload stop
    else walk offset payload stop runs (s.pass offset payload stop run)

def addRun (p : Pending) (start stop : ℕ) : Pending :=
  { p with runs := MergedRuns.add p.runs (start, stop) }

/-- `none` where the piece ends past the ceiling. -/
def place (p : Pending) (offset : ℕ) (payload : List UInt8) : Option Pending :=
  let stop := offset + payload.length
  if maxDatagram < stop then none
  else
    let bytes := p.bytes ++ List.replicate (stop - p.bytes.length) 0
    let s := Placing.walk offset payload stop p.runs ⟨bytes, p.overlapped, offset⟩
    some { ({ p with bytes := s.bytes, overlapped := s.overlapped }).addRun offset stop with
      pieces := p.pieces + 1 }

/-- Complete exactly when the total is known and one run covers all of it. -/
def complete (p : Pending) : Bool :=
  p.total.any fun t => decide (p.runs = [(0, t)])

end Pending

/-- The datagram's total length, if this piece is the one that declares it. -/
def declaredTotal (info : FragmentInfo) (len : ℕ) : Option ℕ :=
  if info.more then none else some (info.offset + len)

namespace Pending

/-- The piece contradicts the length already known, or bytes already placed. -/
def contradicts (p : Pending) (total : ℕ) : Bool :=
  p.total.any (· ≠ total) || p.runs.getLast?.any fun r => total < r.2

/-- The total a piece declares is recorded, unless it contradicts what is known. -/
def declare (p : Pending) (info : FragmentInfo) (len : ℕ) : Option Pending :=
  match declaredTotal info len with
  | none => some p
  | some total => if p.contradicts total then none else some { p with total := some total }

/-- A piece offered to its datagram: the datagram after it, and whether the piece was placed. -/
def offer (p : Pending) (info : FragmentInfo) (payload : List UInt8) : Pending × Bool :=
  match p.declare info payload.length with
  | none => (p, false)
  | some p =>
    if p.total.any fun total => total < info.offset + payload.length then (p, false)
    else ((p.place info.offset payload).elim (p, false) fun p => (p, true))

end Pending

structure FragmentTable where
  pending : ExtTreeMap FragmentKey Pending
  stats : FragmentStats
  maxPending : Option ℕ
  windowMs : Option ℕ
  nextSeq : ℕ

namespace FragmentTable

/-- A table bounded by concurrency and by a deadline. -/
def bounded (maxPending windowMs : Option ℕ) : FragmentTable :=
  ⟨∅, ⟨0, 0, 0, 0, 0, 0, 0, 0⟩, maxPending, windowMs, 0⟩

/-- An unbounded table: nothing expires and nothing is evicted. -/
def new : FragmentTable := bounded none none

def pendingCount (t : FragmentTable) : ℕ := t.pending.size

def pendingBytes (t : FragmentTable) : ℕ := (t.pending.toList.map fun e => e.2.heldBytes).sum

def inTime (window now : ℕ) (p : Pending) : Bool :=
  p.openedAt.all fun opened => decide (now - opened ≤ window)

/-- The datagrams past their deadline are dropped. -/
def sweep (t : FragmentTable) (window now : ℕ) : FragmentTable :=
  let kept := t.pending.filter fun _ p => inTime window now p
  let lost := (t.pending.toList.filter fun e => !inTime window now e.2).map fun e => e.2.heldBytes
  { t with
    pending := kept
    stats := { t.stats with
      expired := t.stats.expired + (t.pending.size - kept.size)
      expiredBytes := t.stats.expiredBytes + lost.sum } }

def expire (t : FragmentTable) (nowMillis : Option ℕ) : FragmentTable :=
  match t.windowMs, nowMillis with
  | some window, some now => t.sweep window now
  | _, _ => t

def victim (t : FragmentTable) : Option FragmentKey :=
  (t.pending.toList.argmin fun e => e.2.seq).map Prod.fst

def evict (t : FragmentTable) (key : FragmentKey) : FragmentTable :=
  { t with
    pending := t.pending.erase key
    stats := { t.stats with
      evictedBytes := t.stats.evictedBytes + (t.pending[key]?.map Pending.heldBytes).getD 0
      evicted := t.stats.evicted + 1 } }

/-- Evictions until the table is below the cap; a table has no more of them than datagrams. -/
def evictWhile (cap : ℕ) : ℕ → FragmentTable → FragmentTable
  | 0, t => t
  | fuel + 1, t =>
    if cap ≤ t.pending.size then t.victim.elim t fun key => evictWhile cap fuel (t.evict key)
    else t

def makeRoom (t : FragmentTable) : FragmentTable :=
  match t.maxPending with
  | none => t
  | some cap => if cap = 0 then t else evictWhile cap t.pending.size t

def fresh (seq : ℕ) (nowMillis : Option ℕ) (tunnel : Tunnel) : Pending :=
  ⟨[], [], none, 0, false, nowMillis, seq, tunnel⟩

/-- Room is made for a datagram, and it is opened. -/
def openChain (t : FragmentTable) (key : FragmentKey) (nowMillis : Option ℕ) (tunnel : Tunnel) :
    FragmentTable :=
  let t := t.makeRoom
  { t with
    pending := t.pending.insert key (fresh t.nextSeq nowMillis tunnel)
    nextSeq := t.nextSeq + 1 }

/-- The table in which the datagram of a piece is pending. -/
def ready (t : FragmentTable) (key : FragmentKey) (nowMillis : Option ℕ) (tunnel : Tunnel) :
    FragmentTable :=
  let t := t.expire nowMillis
  if key ∈ t.pending then t else t.openChain key nowMillis tunnel

def refuse (t : FragmentTable) (key : FragmentKey) (entry : Pending) : FragmentTable :=
  { t with
    pending := t.pending.insert key entry
    stats := { t.stats with malformed := t.stats.malformed + 1 } }

def keep (t : FragmentTable) (key : FragmentKey) (entry : Pending) : FragmentTable :=
  { t with
    pending := t.pending.insert key entry
    stats := { t.stats with pieces := t.stats.pieces + 1 } }

def release (t : FragmentTable) (key : FragmentKey) (done : Pending) : FragmentTable :=
  { t with
    pending := t.pending.erase key
    stats := { t.stats with
      pieces := t.stats.pieces + 1
      completed := t.stats.completed + 1
      overlapping := t.stats.overlapping + if done.overlapped then 1 else 0 } }

/-- What becomes of the piece once its datagram is pending. -/
def settle (t : FragmentTable) (piece : IpFragment) (entry : Pending) :
    FragmentTable × Option Reassembled :=
  let (entry, placed) := entry.offer piece.info piece.payload
  if placed = false then (t.refuse piece.key entry, none)
  else if entry.complete = false then (t.keep piece.key entry, none)
  else
    (t.release piece.key entry,
      some
        { key := piece.key
          payload := entry.bytes
          packetIndex := piece.packetIndex
          pieces := entry.pieces
          overlapped := entry.overlapped
          tunnel := entry.tunnel })

/-- Place one piece; an answer when it completed a datagram. The datagram was just opened if it was
not there. -/
def push (t : FragmentTable) (piece : IpFragment) (nowMillis : Option ℕ) :
    FragmentTable × Option Reassembled :=
  let t := t.ready piece.key nowMillis piece.tunnel
  (t.pending[piece.key]?).elim (t, none) fun entry => t.settle piece entry

end FragmentTable

end WatchingZenoh.Fragments
