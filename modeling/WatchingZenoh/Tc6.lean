import Mathlib
import WatchingZenoh.Library.Procedures

/-! The serial interface of a 10BASE-T1x MAC-PHY. Every data exchange carries a header out and a chunk
and a footer back; a received frame is put together from chunks, over as many exchanges and calls as
it takes. -/

namespace WatchingZenoh.Tc6
open Procedures

abbrev Bytes := List UInt8

abbrev Word := BitVec 32

def rxFrameMax : ℕ := 1536

def maxChunksPerReceive : ℕ := 64

inductive ChunkSize
  | b8
  | b16
  | b32
  | b64
  deriving DecidableEq, Repr

def ChunkSize.bytes : ChunkSize → ℕ
  | .b8 => 8
  | .b16 => 16
  | .b32 => 32
  | .b64 => 64

def countOnes (word : Word) : ℕ := (List.range 32).countP word.getLsbD

def parityBit (word : Word) : Word := BitVec.ofNat 32 ((countOnes word + 1) % 2)

def parityOk (word : Word) : Bool := countOnes word % 2 = 1

/-- The word with its lowest bit set so that the count of ones is odd. -/
def withParity (word : Word) : Word := (word &&& ~~~1) ||| parityBit (word &&& ~~~1)

structure Reg where
  mms : ℕ
  addr : ℕ
  deriving DecidableEq, Repr

namespace StdReg

def reset : Reg := ⟨0, 0x003⟩

def status0 : Reg := ⟨0, 0x008⟩

def status1 : Reg := ⟨0, 0x009⟩

def resetSwreset : Word := 1

def status0Resetc : Word := 1 <<< 6

end StdReg

def controlHeader (write : Bool) (reg : Reg) : Word :=
  let word : Word := ((BitVec.ofNat 32 reg.mms &&& 0xF) <<< 24) ||| (BitVec.ofNat 32 reg.addr <<< 8)
  withParity (if write then word ||| (1 <<< 29) else word)

structure DataHeader where
  dataValid : Bool
  noReceive : Bool
  startValid : Bool
  endValid : Bool
  endByteOffset : ℕ
  deriving DecidableEq, Repr

namespace DataHeader

/-- An exchange that sends nothing and asks for whatever is waiting. -/
def receive : DataHeader := ⟨false, false, false, false, 0⟩

def status : DataHeader := ⟨false, true, false, false, 0⟩

def word (h : DataHeader) : Word :=
  let flag (b : Bool) (pos : ℕ) : Word := if b then 1 <<< pos else 0
  withParity ((1 <<< 31) ||| flag h.dataValid 21 ||| flag h.noReceive 29 ||| flag h.startValid 20 |||
    if h.endValid then (1 <<< 14) ||| ((BitVec.ofNat 32 h.endByteOffset &&& 0x3F) <<< 8) else 0)

end DataHeader

namespace Footer

def extendedStatus (f : Word) : Bool := f.getLsbD 31

def headerBad (f : Word) : Bool := f.getLsbD 30

def synced (f : Word) : Bool := f.getLsbD 29

def receiveChunksAvailable (f : Word) : ℕ := ((f >>> 24) &&& 0x1F).toNat

def dataValid (f : Word) : Bool := f.getLsbD 21

def startValid (f : Word) : Bool := f.getLsbD 20

def startWordOffset (f : Word) : ℕ := ((f >>> 16) &&& 0xF).toNat

def frameDrop (f : Word) : Bool := f.getLsbD 15

def endValid (f : Word) : Bool := f.getLsbD 14

def endByteOffset (f : Word) : ℕ := ((f >>> 8) &&& 0x3F).toNat

def transmitCredits (f : Word) : ℕ := ((f >>> 1) &&& 0x1F).toNat

end Footer

inductive Error (E : Type)
  | spi (e : E)
  | headerEcho
  | dataEcho
  | protectedMode
  | footerParity
  | headerRejected
  | notSynced
  | resetTimeout
  deriving DecidableEq, Repr

structure Status where
  extended : Bool := false
  rca : ℕ := 0
  txc : ℕ := 0
  deriving DecidableEq, Repr

/-- A frame being put together; its bytes so far stand for the buffer up to `len`. -/
structure Assembly where
  bytes : Bytes := []
  opened : Bool := false
  overflow : Bool := false
  deriving DecidableEq, Repr

/-- The part of the interface that is not the bus. -/
structure State where
  protectedMode : Bool := false
  status : Status := {}
  interrupt : Bool := false
  assembly : Assembly := {}
  events : Word := 0
  deriving DecidableEq, Repr

/-- The bus, the interrupt line and the clocks of the host, as they go on in the world. A data
exchange takes a header and the bytes sent, a control transaction words for words. -/
structure Bus (cps : ChunkSize) (E : Type) where
  World : Type
  data : World → Word → Bytes → Except E (Vector UInt8 cps.bytes × Word) × World
  control : World → List Word → Except E (List Word) × World
  probe : World → Bool × World
  delayUs : World → ℕ → World
  nowUs : World → ℕ × World

section Interface

variable {cps : ChunkSize} {E : Type} (bus : Bus cps E)

abbrev Tc6 (α : Type) : Type := Proc (State × bus.World) (Error E) α

/-- One step of the bus, with its failure taken for one of the interface. -/
def onBus {α : Type} (f : bus.World → Except E α × bus.World) : Tc6 bus α := fun s =>
  ((f s.2).1.mapError .spi, (s.1, (f s.2).2))

def onWorld {α : Type} (f : bus.World → α × bus.World) : Tc6 bus α := fun s =>
  (.ok (f s.2).1, (s.1, (f s.2).2))

def modifyState (f : State → State) : Tc6 bus Unit := modify fun s => (f s.1, s.2)

/-- One control transaction for one register. -/
def control (reg : Reg) (value : Option Word) : Tc6 bus Word := do
  let inMode ← read fun s => s.1.protectedMode
  let header := controlHeader value.isSome reg
  let complement := if inMode then [(value.map (~~~ ·)).getD 0] else []
  let words ← onBus bus (bus.control · ([header, value.getD 0] ++ complement ++ [0]))
  if words.getD 1 0 ≠ header then throw .headerEcho
  else if inMode ∧ words.getD 2 0 ≠ ~~~ words.getD 3 0 then throw .protectedMode
  else if value.any (· ≠ words.getD 2 0) then throw .dataEcho
  else pure (words.getD 2 0)

def regRead (reg : Reg) : Tc6 bus Word := control bus reg none

def regWrite (reg : Reg) (value : Word) : Tc6 bus Unit := do
  let _ ← control bus reg (some value)
  pure ()

/-- The wait for a reset to report its end; `none` is one that has not returned after these turns. -/
def awaitReset (started budgetUs : ℕ) : ℕ → Tc6 bus (Option Unit)
  | 0 => pure none
  | turns + 1 => do
    onWorld bus fun w => ((), bus.delayUs w 1000)
    let status0 ← regRead bus StdReg.status0
    if status0 &&& StdReg.status0Resetc ≠ 0 then
      regWrite bus StdReg.status0 status0
      pure (some ())
    else
      let now ← onWorld bus bus.nowUs
      if budgetUs ≤ now - started then throw .resetTimeout
      else awaitReset started budgetUs turns

def softReset (budgetMs turns : ℕ) : Tc6 bus (Option Unit) := do
  regWrite bus StdReg.status0 StdReg.status0Resetc
  regWrite bus StdReg.reset StdReg.resetSwreset
  modifyState bus fun s => { s with protectedMode := false, status := {} }
  let started ← onWorld bus bus.nowUs
  awaitReset bus started (budgetMs * 1000) turns

def clearExtendedStatus : Tc6 bus Unit := do
  let status0 ← regRead bus StdReg.status0
  if status0 ≠ 0 then
    regWrite bus StdReg.status0 status0
    modifyState bus fun s => { s with events := s.events ||| status0 }
  let status1 ← regRead bus StdReg.status1
  if status1 ≠ 0 then regWrite bus StdReg.status1 status1
  modifyState bus fun s => { s with status := { s.status with extended := false } }

def exchange (header : DataHeader) (tx : Bytes) : Tc6 bus (Vector UInt8 cps.bytes × Word) := do
  let back ← onBus bus (bus.data · header.word tx)
  let footer := back.2
  if !parityOk footer then throw .footerParity
  else if Footer.headerBad footer then throw .headerRejected
  else
    modifyState bus fun s => { s with status :=
      ⟨Footer.extendedStatus footer, Footer.receiveChunksAvailable footer,
        Footer.transmitCredits footer⟩ }
    if !Footer.synced footer then throw .notSynced
    else pure back

def readStatus : Tc6 bus Unit := do
  let _ ← exchange bus .status []
  pure ()

/-- The header of chunk `i` of a frame. -/
def sendHeader (chunks i : ℕ) (payload : Bytes) : DataHeader :=
  let last := decide (i + 1 = chunks)
  ⟨true, true, decide (i = 0), last, if last then payload.length - 1 else 0⟩

def sendFrame (frame : Bytes) : Tc6 bus Bool :=
  if frame = [] ∨ rxFrameMax < frame.length then pure false
  else do
    let payloads := frame.toChunks cps.bytes
    let chunks := payloads.length
    let credits ← read fun s => s.1.status.txc
    if credits < chunks then readStatus bus
    let credits ← read fun s => s.1.status.txc
    if credits < chunks then pure false
    else
      forEach (fun (p : Bytes × ℕ) => do
        let _ ← exchange bus (sendHeader chunks p.2 p.1) p.1
        pure ()) payloads.zipIdx
      let extended ← read fun s => s.1.status.extended
      if extended then clearExtendedStatus bus
      pure true

/-- The bytes of a chunk that are a frame's. -/
def validLength (cps : ChunkSize) (footer : Word) : ℕ :=
  min (if Footer.endValid footer then Footer.endByteOffset footer + 1 else cps.bytes) cps.bytes

/-- A start takes the place of whatever was there. -/
def Assembly.begin (a : Assembly) (footer : Word) : Assembly :=
  if Footer.startValid footer then
    let opened := decide (Footer.startWordOffset footer = 0)
    ⟨[], opened, !opened⟩
  else a

/-- A chunk with valid data: the frame under assembly after it, and the frame it completed. -/
def Assembly.chunk (a : Assembly) (cps : ChunkSize) (payload : Bytes) (footer : Word) (room : ℕ) :
    Assembly × Option Bytes :=
  let a := a.begin footer
  if !a.opened && !a.overflow then (a, none)
  else
    let valid := validLength cps footer
    let a := if rxFrameMax < a.bytes.length + valid then { a with overflow := true } else a
    let a := if a.overflow then a else { a with bytes := a.bytes ++ payload.take valid }
    if Footer.endValid footer then
      let kept := !Footer.frameDrop footer && !a.overflow && decide (0 < a.bytes.length) &&
        decide (a.bytes.length ≤ room)
      ({}, if kept then some a.bytes else none)
    else (a, none)

/-- What one turn of the receive loop comes to. -/
inductive Turn
  | again
  | done (frame : Option Bytes)

/-- Whether a chunk waits, asked of the device when none is known of. -/
def awaitChunk : Tc6 bus Bool := do
  let rca ← read fun s => s.1.status.rca
  if rca ≠ 0 then pure true
  else
    let interrupt ← read fun s => s.1.interrupt
    let quiet ← if interrupt then onWorld bus fun w => (!(bus.probe w).1, (bus.probe w).2)
      else pure false
    if quiet then pure false
    else
      readStatus bus
      let extended ← read fun s => s.1.status.extended
      if extended then clearExtendedStatus bus
      let rca ← read fun s => s.1.status.rca
      pure (rca ≠ 0)

/-- The chunk of a receive exchange, put in its place. -/
def takeChunk (room : ℕ) (payload : Bytes) (footer : Word) : Tc6 bus Turn :=
  if !Footer.dataValid footer then pure .again
  else do
    let a ← read fun s => s.1.assembly
    modifyState bus fun s => { s with assembly := (a.chunk cps payload footer room).1 }
    pure ((a.chunk cps payload footer room).2.elim .again fun frame => .done (some frame))

def receiveTurn (room : ℕ) : Tc6 bus Turn := do
  let waiting ← awaitChunk bus
  if !waiting then pure (.done none)
  else
    let back ← exchange bus .receive []
    takeChunk bus room back.1.toList back.2

def receiveLoop (room : ℕ) : ℕ → Tc6 bus (Option Bytes)
  | 0 => pure none
  | turns + 1 => do
    let turn ← receiveTurn bus room
    match turn with
    | .again => receiveLoop room turns
    | .done frame => pure frame

/-- The next received frame, into a buffer of `room` bytes. -/
def receiveFrame (room : ℕ) : Tc6 bus (Option Bytes) := receiveLoop bus room maxChunksPerReceive

end Interface

end WatchingZenoh.Tc6
