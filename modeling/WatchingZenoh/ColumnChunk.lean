import WatchingZenoh.ChunkLog
import WatchingZenoh.Library.LittleEndian
import WatchingZenoh.Library.Slices

/-! One chunk of a log of rows of 64-bit columns. Each column takes as few bytes as its largest value
needs; a rising column is kept as its distance from a base. A column is read as one word of eight bytes
and masked, so zeros follow the last row. A slice past the end and an underflow are panics. -/

namespace WatchingZenoh.ColumnLog

open LittleEndian Slices

abbrev Bytes := List UInt8

def firstRows : ℕ := 4

def pad : ℕ := 8

inductive Kind
  | rising
  | plain
deriving DecidableEq, Repr

variable {C : ℕ}

abbrev Row (C : ℕ) := Fin C → ℕ

def widthOf (distance : ℕ) : ℕ :=
  if distance = 0 then 0
  else if distance ≤ 0xFF then 1
  else if distance ≤ 0xFFFF then 2
  else if distance ≤ 0xFFFFFFFF then 4
  else 8

/-- The first `width` of a number's eight bytes. -/
def put (width distance : ℕ) : Bytes := (toLe 8 distance).take width

/-- The column of `width` bytes at `at'`. -/
def take (bytes : Bytes) (at' width : ℕ) : Option ℕ :=
  (slice? bytes at' 8).map fun word => ofLe word &&& (2 ^ (8 * width) - 1)

structure Chunk (C : ℕ) where
  start : ℕ
  len : ℕ
  cap : ℕ
  base : Fin C → ℕ
  width : Fin C → ℕ
  stride : ℕ
  offset : Fin C → ℕ
  bytes : Bytes

/-- Where each column of a row of these widths begins, and the row's length. -/
def layout (width : Fin C → ℕ) : (Fin C → ℕ) × ℕ :=
  (fun j => (((List.finRange C).take j).map width).sum, ((List.finRange C).map width).sum)

def packed (width distances : Fin C → ℕ) : List Bytes :=
  (List.finRange C).map fun j => put (width j) (distances j)

def columns {α : Type} (f : Fin C → Option α) : Option (Fin C → α) :=
  if h : ∀ j, (f j).isSome then some fun j => (f j).get (h j) else none

namespace Chunk

def fromRows (start : ℕ) (kinds : Fin C → Kind) (rows : List (Row C)) (cap : ℕ) : Chunk C :=
  let base j := if kinds j = .rising then (rows.map (· j)).min?.getD 0 else 0
  let width j := rows.foldl (fun width row => max width (widthOf (row j - base j))) 0
  let (offset, stride) := layout width
  ⟨start, rows.length, max cap rows.length, base, width, stride, offset,
    (rows.flatMap fun row => (packed width fun j => row j - base j).flatten) ++ List.replicate pad 0⟩

def value (c : Chunk C) (col : Fin C) (at' : ℕ) : Option ℕ :=
  (take c.bytes (at' * c.stride + c.offset col) (c.width col)).map (c.base col + ·)

/-- The distances of a row, or none when a rising value is below the base. -/
def distances (c : Chunk C) (kinds : Fin C → Kind) (row : Row C) : Option (Fin C → ℕ) :=
  if ∀ j, kinds j = .rising → c.base j ≤ row j then
    some fun j => if kinds j = .rising then row j - c.base j else row j
  else none

def distancesAt (c : Chunk C) (at' : ℕ) : Option (Fin C → ℕ) :=
  if at' * c.stride ≤ c.bytes.length then
    columns fun j => take (c.bytes.drop (at' * c.stride)) (c.offset j) (c.width j)
  else none

/-- The row at a place, if it is one of the chunk. -/
def row (c : Chunk C) (at' : ℕ) : Option (Option (Row C)) :=
  if c.len ≤ at' then some none
  else (c.distancesAt at').map fun out => some fun j => out j + c.base j

def rewrite (c : Chunk C) (width : Fin C → ℕ) (cap : ℕ) : Option (Chunk C) := do
  let rows ← (List.range c.len).mapM c.distancesAt
  let (offset, stride) := layout width
  some { c with
    width := width
    stride := stride
    offset := offset
    cap := cap
    bytes := (rows.flatMap fun out => (packed width out).flatten) ++ List.replicate pad 0 }

def makeRoom (c : Chunk C) : Option (Chunk C) :=
  if c.len < c.cap then some c
  else
    let cap := min (max (c.cap * 2) firstRows) chunkItems
    if c.bytes.length ≤ cap * c.stride + pad then some { c with cap := cap } else none

def widthsFor (c : Chunk C) (distances : Fin C → ℕ) : Fin C → ℕ :=
  fun j => max (c.width j) (widthOf (distances j))

/-- The columns as wide as a row of these distances needs. -/
def widen (c : Chunk C) (distances : Fin C → ℕ) : Option (Chunk C) :=
  let need := c.widthsFor distances
  if need ≠ c.width then c.rewrite need c.cap else some c

def append (c : Chunk C) (kinds : Fin C → Kind) (row : Row C) : Option (Chunk C) := do
  let distances ← c.distances kinds row
  let c ← c.widen distances
  let c ← c.makeRoom
  some { c with
    bytes := c.bytes.take (c.len * c.stride) ++ (packed c.width distances).flatten ++
      List.replicate pad 0
    len := c.len + 1 }

def takes (c : Chunk C) (kinds : Fin C → Kind) (row : Row C) : Bool :=
  decide (c.len < chunkItems) && (c.distances kinds row).isSome

def set (c : Chunk C) (kinds : Fin C → Kind) (at' : ℕ) (row : Row C) : Option (Chunk C) :=
  match c.distances kinds row with
  | some distances => do
    let c ← c.widen distances
    let bytes ← copyParts c.bytes (at' * c.stride) (packed c.width distances)
    some { c with bytes := bytes }
  | none => do
    let rows ← (List.range c.len).mapM fun k => c.row k
    let rows ← rows.mapM id
    if at' < rows.length then some (fromRows c.start kinds (rows.set at' row) c.cap) else none

def shrinkToFit (c : Chunk C) : Chunk C := { c with cap := c.len }

end Chunk

end WatchingZenoh.ColumnLog
