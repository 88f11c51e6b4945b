import Mathlib

/-! The frame boundaries of a length-prefixed stream. A reader hands the window whatever arrived, and
the window hands out each frame's payload once it is whole: from the bytes of the push where it lies
whole in one, and otherwise from a carry it is assembled in. -/

namespace WatchingZenoh.StreamWindow

abbrev Bytes := List UInt8

def maxFramePayload : ℕ := 65535

def prefixWidth (lowlatency : Bool) : ℕ := if lowlatency then 4 else 2

/-- The value of bytes in little-endian order. -/
def leValue : Bytes → ℕ
  | [] => 0
  | byte :: rest => byte.toNat + 256 * leValue rest

/-- The length a prefix names, of the four bytes it is kept in. -/
def decodePrefix (bytes : Bytes) (width : ℕ) : ℕ :=
  if width = 4 then leValue (bytes.take 4) else leValue (bytes.take 2)

inductive WindowError
  | oversizeBatch (named : ℕ)
  | carryTooSmall (named : ℕ)
  deriving DecidableEq, Repr

/-- A frame that spans pushes is assembled in a carry; `none` is an index out of its storage. -/
structure Carry (C : Type) where
  begin : C → ℕ → C × Bool
  extend : C → Bytes → Option C
  bytes : C → Bytes
  release : C → C

/-- A carry on the heap, which has room for every frame. -/
def heapCarry : Carry Bytes where
  begin c _ := (c, true)
  extend c bytes := some (c ++ bytes)
  bytes c := c
  release _ := []

/-- A carry of `N` bytes. -/
structure FixedCarry (N : ℕ) where
  bytes : Bytes
  size : bytes.length = N
  len : ℕ

namespace FixedCarry

variable {N : ℕ}

def new (N : ℕ) : FixedCarry N := ⟨List.replicate N 0, List.length_replicate, 0⟩

/-- Bytes are copied into the slice behind those that are there. -/
def extend (c : FixedCarry N) (more : Bytes) : Option (FixedCarry N) :=
  if h : c.len + more.length ≤ N then
    some ⟨c.bytes.take c.len ++ more ++ c.bytes.drop (c.len + more.length),
      by simp only [List.length_append, List.length_take, List.length_drop, c.size]; omega,
      c.len + more.length⟩
  else none

end FixedCarry

def fixedCarry (N : ℕ) : Carry (FixedCarry N) where
  begin c want := ({ c with len := 0 }, decide (want ≤ N))
  extend := FixedCarry.extend
  bytes c := c.bytes.take c.len
  release c := { c with len := 0 }

/-- Where the stream can break, and what is remembered there. -/
inductive State
  | between
  | inPrefix (bytes : Bytes) (have_ width : ℕ)
  | payload (want have_ : ℕ)
  deriving DecidableEq, Repr

structure RxWindow (C : Type) where
  state : State
  carry : C

/-- A turn of the loop over the bytes of a push: it goes on with those that are left, or fails. -/
inductive Turn (C : Type)
  | goOn (window : RxWindow C) (left : Bytes) (frames : List Bytes)
  | fail (window : RxWindow C) (error : WindowError)

/-- What a push comes to: the frames it handed out, and the error it stopped at. -/
structure Pushed (C : Type) where
  window : RxWindow C
  frames : List Bytes
  error : Option WindowError

section Window

variable {C : Type} (carry : Carry C)

def RxWindow.betweenFrames (w : RxWindow C) : Bool := decide (w.state = .between)

def RxWindow.reset (w : RxWindow C) : RxWindow C := ⟨.between, carry.release w.carry⟩

/-- More of a prefix: once it is whole, the length it names is asked for. -/
def turnPrefix (w : RxWindow C) (bytes : Bytes) (start : Bytes) (have_ width : ℕ) : Turn C :=
  let n := min (width - have_) bytes.length
  let start := start.take have_ ++ bytes.take n ++ start.drop (have_ + n)
  let have_ := have_ + n
  let bytes := bytes.drop n
  if have_ < width then .goOn { w with state := .inPrefix start have_ width } bytes []
  else
    let want := decodePrefix start width
    if want > maxFramePayload then .fail (w.reset carry) (.oversizeBatch want)
    else if want = 0 then .goOn { w with state := .between } bytes []
    else .goOn { w with state := .payload want 0 } bytes []

/-- More of a payload: lent where it lies whole in the bytes, and carried otherwise. -/
def turnPayload (w : RxWindow C) (bytes : Bytes) (want have_ : ℕ) : Option (Turn C) :=
  if have_ = 0 ∧ want ≤ bytes.length then
    some (.goOn { w with state := .between } (bytes.drop want) [bytes.take want])
  else
    let begun := if have_ = 0 then carry.begin w.carry want else (w.carry, true)
    if begun.2 = false then some (.fail (RxWindow.reset carry ⟨w.state, begun.1⟩) (.carryTooSmall want))
    else
      let n := min (want - have_) bytes.length
      (carry.extend begun.1 (bytes.take n)).map fun held =>
        if have_ + n < want then .goOn ⟨.payload want (have_ + n), held⟩ (bytes.drop n) []
        else .goOn ⟨.between, carry.release held⟩ (bytes.drop n) [carry.bytes held]

def turn (w : RxWindow C) (bytes : Bytes) (width : ℕ) : Option (Turn C) :=
  match w.state with
  | .between => some (.goOn { w with state := .inPrefix (List.replicate 4 0) 0 width } bytes [])
  | .inPrefix start have_ width => some (turnPrefix carry w bytes start have_ width)
  | .payload want have_ => turnPayload carry w bytes want have_

/-- The turns of a push, in at most `fuel`. -/
def pushLoop (width : ℕ) : ℕ → RxWindow C → Bytes → List Bytes → Option (Pushed C)
  | fuel, w, bytes, frames =>
    if bytes.isEmpty then some ⟨w, frames, none⟩
    else
      match fuel with
      | 0 => none
      | fuel + 1 =>
        (turn carry w bytes width).bind fun
          | .goOn w left more => pushLoop width fuel w left (frames ++ more)
          | .fail w error => some ⟨w, frames, some error⟩

/-- A push takes at most two turns for each byte. -/
def push (w : RxWindow C) (bytes : Bytes) (width : ℕ) : Option (Pushed C) :=
  pushLoop carry width (2 * bytes.length) w bytes []

/-- What arrived, and whether the link is a low-latency one by then. -/
structure Push where
  bytes : Bytes
  lowlatency : Bool

/-- The pushes of a stream, up to the first that fails. -/
def pushAll : RxWindow C → List Push → Option (Pushed C)
  | w, [] => some ⟨w, [], none⟩
  | w, p :: rest => do
    let first ← push carry w p.bytes (prefixWidth p.lowlatency)
    match first.error with
    | some _ => some first
    | none =>
      let rest ← pushAll first.window rest
      some { rest with frames := first.frames ++ rest.frames }

end Window

end WatchingZenoh.StreamWindow
