import WatchingZenoh.Tc6Runs
import WatchingZenoh.Library.Chunks

/-! Frames that a device cuts as the interface itself cuts them, received again. The chunks of a frame
may have chunks without data between them, and a frame may be marked for dropping at its end. -/

namespace WatchingZenoh.Tc6

open Procedures Chunks

variable {cps : ChunkSize} {E : Type}

/-- The frame under assembly after chunks were taken, and the frames they completed. -/
def Assembly.drain (a : Assembly) (room : ℕ) : List (Chunk cps) → Assembly × List Bytes
  | [] => (a, [])
  | c :: chunks =>
    if c.data then
      let taken := a.chunk cps c.payload.toList c.footer room
      let rest := taken.1.drain room chunks
      (rest.1, taken.2.toList ++ rest.2)
    else a.drain room chunks

/-- A frame is returned unless it is marked, or too long. -/
def kept (frame : Bytes) (drop : Bool) : Option Bytes :=
  if drop = false ∧ frame.length ≤ rxFrameMax then some frame else none

structure Answers (footer : Word) : Prop where
  parity : parityOk footer = true
  header : Footer.headerBad footer = false
  synced : Footer.synced footer = true

/-- A device that works: the footers it gives when nothing waits and when something does. -/
structure Device where
  idle : Word
  busy : Word
  idle_answers : Answers idle
  busy_answers : Answers busy
  idle_extended : Footer.extendedStatus idle = false
  busy_extended : Footer.extendedStatus busy = false
  idle_none : Footer.receiveChunksAvailable idle = 0
  busy_some : Footer.receiveChunksAvailable busy ≠ 0

/-- Its bus hands out the chunks it has, one for each exchange that asks for one. -/
def Device.bus (device : Device) (cps : ChunkSize) (E : Type) : Bus cps E where
  World := List (Chunk cps)
  data w word _ :=
    if word.getLsbD 29 then
      (.ok (Vector.replicate cps.bytes 0, if w.isEmpty then device.idle else device.busy), w)
    else (.ok (w.head?.elim (Vector.replicate cps.bytes 0, device.idle) fun c => (c.payload, c.footer)),
      w.tail)
  control w words := (.ok words, w)
  probe w := (!w.isEmpty, w)
  delayUs w _ := w
  nowUs w := (0, w)

section Receive

variable (device : Device) (E)

end Receive

end WatchingZenoh.Tc6
