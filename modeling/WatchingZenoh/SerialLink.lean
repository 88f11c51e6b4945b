import Mathlib
import WatchingZenoh.Library.Cobs
import WatchingZenoh.Library.LittleEndian

/-! The frames of a serial link. A frame is `[header | len | payload | crc32]`, stuffed so that it has
no zero byte, and a zero byte ends it on the wire. -/

namespace WatchingZenoh.SerialLink
open LittleEndian

abbrev Bytes := List UInt8

def serialMtu : ℕ := 1500

def serialMfs : ℕ := serialMtu + 1 + 2 + 4

def serialMaxCobsBuf : ℕ := 1516

def serialEop : UInt8 := 0x00

/-- The byte lists the generated codecs write: with an allocator they grow past their bound. -/
inductive Storage
  | inline
  | growing
  deriving DecidableEq, Repr

/-- One byte into a list with bound `cap`, where `none` is the capacity error. -/
def push (storage : Storage) (cap : ℕ) (out : Bytes) (byte : UInt8) : Option Bytes :=
  if storage = .inline ∧ cap ≤ out.length then none else some (out ++ [byte])

/-- The scan of a group: up to `room` bytes that are not zero, and what is behind them. -/
def scan : ℕ → Bytes → Bytes × Bytes
  | 0, rest => ([], rest)
  | _ + 1, [] => ([], [])
  | room + 1, byte :: rest =>
    if byte = 0 then ([], byte :: rest)
    else (byte :: (scan room rest).1, (scan room rest).2)

/-- What the loop does after a group: the byte it appends, and the data it goes on with. -/
def afterGroup (run : ℕ) : Bytes → Option UInt8 × Option Bytes
  | [] => (if 254 ≤ run then some 1 else none, none)
  | byte :: behind =>
    if run < 254 then
      if behind = [] then (some 1, none) else (none, some behind)
    else (none, some (byte :: behind))

/-- The stuffer's loop over the groups, with the data that is left. -/
def stuffLoop (storage : Storage) : ℕ → Bytes → Bytes → Option Bytes
  | 0, _, _ => none
  | fuel + 1, rest, out => do
    let group := (scan 254 rest).1
    let out ← push storage serialMaxCobsBuf out (.ofNat (group.length + 1))
    let out ← group.foldlM (push storage serialMaxCobsBuf) out
    let (tail, next) := afterGroup group.length (scan 254 rest).2
    let out ← tail.toList.foldlM (push storage serialMaxCobsBuf) out
    match next with
    | none => some out
    | some next => stuffLoop storage fuel next out

/-- The number of bytes is a `u32`. -/
def cobsEncode (storage : Storage) (data : Bytes) : Option Bytes :=
  stuffLoop storage (data.length + 1) (data.take (data.length % 2 ^ 32)) []

/-- The bytes of one group, as far as the data goes: what is left, and the list they go to. -/
def copyGroup (storage : Storage) : ℕ → Bytes → Bytes → Option (Bytes × Bytes)
  | 0, rest, out => some (rest, out)
  | _ + 1, [], out => some ([], out)
  | todo + 1, byte :: rest, out => do
    let out ← push storage serialMfs out byte
    copyGroup storage todo rest out

/-- The zero that closed the group before, unless that group was full. -/
def pushZero (storage : Storage) (prev : ℕ) (out : Bytes) : Option Bytes :=
  if prev ≠ 255 then push storage serialMfs out 0 else some out

/-- The destuffer's loop over the code bytes, with the code of the group before. -/
def destuffLoop (storage : Storage) : ℕ → ℕ → Bytes → Bytes → Option Bytes
  | 0, _, _, out => some out
  | _ + 1, _, [], out => some out
  | fuel + 1, prev, code :: rest, out =>
    if code = 0 then some out
    else do
      let out ← pushZero storage prev out
      let (rest, out) ← copyGroup storage (code.toNat - 1) rest out
      destuffLoop storage fuel code.toNat rest out

def cobsDecode (storage : Storage) (data : Bytes) : Option Bytes :=
  destuffLoop storage (data.length + 1) 255 (data.take (data.length % 2 ^ 32)) []

/-- The payload's length is written from the payload. -/
structure SerialEnvelope where
  header : UInt8
  payload : Bytes
  crc32 : UInt32
  bounded : payload.length ≤ serialMtu

namespace SerialEnvelope

def encode (env : SerialEnvelope) : Bytes :=
  env.header :: toLe 2 env.payload.length ++ env.payload ++ toLe 4 env.crc32.toNat

def decode : Bytes → Option (SerialEnvelope × Bytes)
  | header :: low :: high :: rest =>
    let len := ofLe [low, high]
    if h : len ≤ serialMtu then
      if len ≤ rest.length ∧ 4 ≤ (rest.drop len).length then
        some (⟨header, rest.take len, .ofNat (ofLe ((rest.drop len).take 4)),
          (List.length_take_le _ _).trans h⟩, (rest.drop len).drop 4)
      else none
    else none
  | _ => none

end SerialEnvelope

structure DecodedFrame where
  header : UInt8
  payload : Bytes
  deriving DecidableEq, Repr

inductive SerialFrameError
  | tooLarge
  | cobs
  | malformed
  | crcMismatch
  deriving DecidableEq, Repr

section Frames

variable (storage : Storage) (crc32 : Bytes → UInt32)

/-- The bytes of the frame, written into a buffer of `room` bytes. -/
def encodeFrameStuffing (header : UInt8) (payload : Bytes) (room : ℕ) :
    Except SerialFrameError Bytes :=
  if h : payload.length ≤ serialMtu then
    let preCobs := SerialEnvelope.encode ⟨header, payload, crc32 payload, h⟩
    if serialMfs < preCobs.length then .error .tooLarge
    else match cobsEncode storage preCobs with
      | none => .error .cobs
      | some body =>
        if room < body.length + 1 then .error .cobs else .ok (body ++ [serialEop])
  else .error .tooLarge

def encodeFrame (header : UInt8) (payload : Bytes) : Except SerialFrameError Bytes :=
  encodeFrameStuffing storage crc32 header payload serialMaxCobsBuf

def decodeFrame (wire : Bytes) : Except SerialFrameError DecodedFrame :=
  match cobsDecode storage wire with
  | none => .error .cobs
  | some frame =>
    if serialMfs < frame.length then .error .tooLarge
    else match SerialEnvelope.decode frame with
      | none => .error .malformed
      | some (env, remaining) =>
        if remaining ≠ [] then .error .malformed
        else if env.crc32 ≠ crc32 env.payload then .error .crcMismatch
        else .ok ⟨env.header, env.payload⟩

structure SerialFrameReader where
  buf : Bytes
  deriving DecidableEq, Repr

namespace SerialFrameReader

def new : SerialFrameReader := ⟨[]⟩

def push (r : SerialFrameReader) (byte : UInt8) :
    SerialFrameReader × Except SerialFrameError (Option DecodedFrame) :=
  if byte = serialEop then (⟨[]⟩, (decodeFrame storage crc32 r.buf).map some)
  else if serialMaxCobsBuf ≤ r.buf.length then (⟨[]⟩, .error .tooLarge)
  else (⟨r.buf ++ [byte]⟩, .ok none)

/-- A chunk of the line: the first framing error ends it. -/
def feed (r : SerialFrameReader) : Bytes → List DecodedFrame →
    SerialFrameReader × Except SerialFrameError (List DecodedFrame)
  | [], frames => (r, .ok frames)
  | byte :: bytes, frames =>
    match r.push storage crc32 byte with
    | (r, .error e) => (r, .error e)
    | (r, .ok none) => feed r bytes frames
    | (r, .ok (some frame)) => feed r bytes (frames ++ [frame])

/-- The bytes of the line one by one: the reader behind them, and what each push gave. -/
def pushes (r : SerialFrameReader) : Bytes →
    SerialFrameReader × List (Except SerialFrameError (Option DecodedFrame))
  | [] => (r, [])
  | byte :: bytes =>
    let next := r.push storage crc32 byte
    let after := next.1.pushes bytes
    (after.1, next.2 :: after.2)

end SerialFrameReader

end Frames

end WatchingZenoh.SerialLink
