import Mathlib
import WatchingZenoh.SerialFlush
import WatchingZenoh.Library.KeyedRows
import WatchingZenoh.Library.Steps

/-! The serial lines of a capture. Each interface has a reader of its own, and a packet is a read of
its line: a frame may span packets and a packet may hold several. A framing error in a packet loses
the frames before it in that packet and the bytes behind it, so a packet is read for what its bytes
hold exactly when it has no error, or has no frame and ends where a frame may start. -/

namespace WatchingZenoh.SerialLine
open SerialLink

structure SerialCensus where
  interfaces : ℕ := 0
  bytes : ℕ := 0
  frames : ℕ := 0
  crcFailures : ℕ := 0
  framingErrors : ℕ := 0
  handshakeFrames : ℕ := 0
  rolesWitnessed : Bool := false
  directionUnattributed : Bool := false
  committedPositionally : Bool := false
  deriving DecidableEq, Repr

structure SerialLine where
  readers : List (ℕ × SerialFrameReader) := []
  aInterface : Option ℕ := none
  read : ℕ := 0
  limit : Option ℕ := none
  census : SerialCensus := {}
  deriving DecidableEq, Repr

inductive SerialSide
  | initiator
  | responder
  deriving DecidableEq, Repr

def roleOf (header : UInt8) : Option SerialSide :=
  if hasFlag header serialFlagInit && !hasFlag header serialFlagAck then some .initiator
  else if hasFlag header serialFlagInit && hasFlag header serialFlagAck then some .responder
  else none

def isHandshake (header : UInt8) : Bool := hasFlag header (serialFlagInit ||| serialFlagReset)

structure SerialFrame where
  interface : ℕ
  packetIndex : ℕ
  header : UInt8
  payload : Bytes
  deriving DecidableEq, Repr

/-- The reader of an interface is replaced, or the first one is made. -/
def setReader (interface : ℕ) (r : SerialFrameReader) :
    List (ℕ × SerialFrameReader) → List (ℕ × SerialFrameReader)
  | [] => [(interface, r)]
  | (id, old) :: readers =>
    if id = interface then (id, r) :: readers else (id, old) :: setReader interface r readers

namespace SerialLine

def withLimit (limit : Option ℕ) : SerialLine := { limit := limit }

def readerOf (line : SerialLine) (interface : ℕ) : SerialFrameReader :=
  (KeyedRows.row line.readers interface).getD .new

/-- An interface that was not seen yet gets a reader. -/
def register (line : SerialLine) (interface : ℕ) : SerialLine :=
  if line.readers.any (·.1 = interface) then line
  else
    let readers := line.readers ++ [(interface, SerialFrameReader.new)]
    { line with
      readers := readers
      census := { line.census with
        interfaces := readers.length, directionUnattributed := decide (readers.length < 2) }
      aInterface := line.aInterface.or (some interface) }

/-- The counters of a frame. A line with a limit commits its guess of the sides past it. -/
def count (line : SerialLine) (header : UInt8) : SerialLine :=
  let read := line.read + 1
  let census := line.census
  { line with
    read := read
    census := { census with
      handshakeFrames := census.handshakeFrames + (isHandshake header).toNat
      committedPositionally := census.committedPositionally ||
        !census.rolesWitnessed && line.limit.any (· < read) } }

/-- The interface that a side's frame says is the initiator's. -/
def initiatorOf (line : SerialLine) (interface : ℕ) : SerialSide → ℕ
  | .initiator => interface
  | .responder => ((line.readers.map Prod.fst).find? (· ≠ interface)).getD interface

/-- A frame is counted, and the first that proves a side settles which interface is which. -/
def note (line : SerialLine) (frame : SerialFrame) : SerialLine :=
  let line := line.count frame.header
  if line.census.rolesWitnessed || line.census.committedPositionally then line
  else (roleOf frame.header).elim line fun side =>
    { line with
      aInterface := some (line.initiatorOf frame.interface side)
      census := { line.census with rolesWitnessed := true } }

end SerialLine

section Line

variable (storage : Storage) (crc32 : Bytes → UInt32)

/-- The census of what a feed gave, and the frames a packet returns of it. -/
def fedFrames (interface packetIndex : ℕ) (census : SerialCensus) :
    Except SerialFrameError (List DecodedFrame) → SerialCensus × List SerialFrame
  | .ok frames => (census, frames.map fun f => ⟨interface, packetIndex, f.header, f.payload⟩)
  | .error .crcMismatch => ({ census with crcFailures := census.crcFailures + 1 }, [])
  | .error _ => ({ census with framingErrors := census.framingErrors + 1 }, [])

/-- One capture packet. The loop around the feed goes round once: after an error nothing is left. -/
def SerialLine.push (line : SerialLine) (interface packetIndex : ℕ) (bytes : Bytes) :
    SerialLine × List SerialFrame :=
  let line := { line with census := { line.census with bytes := line.census.bytes + bytes.length } }
  let line := line.register interface
  let fed := (line.readerOf interface).feed storage crc32 bytes []
  let (census, out) := fedFrames interface packetIndex line.census fed.2
  let line := { line with
    readers := setReader interface fed.1 line.readers
    census := { census with frames := census.frames + out.length } }
  (out.foldl SerialLine.note line, out)

structure Packet where
  interface : ℕ
  index : ℕ
  bytes : Bytes
  deriving DecidableEq, Repr

def step (line : SerialLine) (p : Packet) : Option (SerialLine × List SerialFrame) :=
  some (line.push storage crc32 p.interface p.index p.bytes)

end Line

def framesIn (outs : List (Except SerialFrameError (Option DecodedFrame))) : List DecodedFrame :=
  outs.filterMap fun out => out.toOption.join

def stream (interface : ℕ) (packets : List Packet) : Bytes :=
  (packets.filter (·.interface = interface)).flatMap (·.bytes)

/-- The headers and payloads that the packets of an interface returned. -/
def returned (interface : ℕ) (outs : List (List SerialFrame)) : List DecodedFrame :=
  (outs.flatten.filter (·.interface = interface)).map fun f => ⟨f.header, f.payload⟩

/-- The stretches that a zero byte ends, the first of them behind `span`. -/
def stretches (span : Bytes) : Bytes → List Bytes
  | [] => []
  | byte :: bytes =>
    if byte = 0 then span :: stretches [] bytes else stretches (span ++ [byte]) bytes

/-- The frames of the stretches that fit the reader and decode, the first of them behind `span`. -/
def goodFramesFrom (storage : Storage) (crc32 : Bytes → UInt32) (span bytes : Bytes) :
    List DecodedFrame :=
  ((stretches span bytes).filter (·.length ≤ serialMaxCobsBuf)).filterMap fun stretch =>
    (decodeFrame storage crc32 stretch).toOption

def goodFrames (storage : Storage) (crc32 : Bytes → UInt32) (bytes : Bytes) : List DecodedFrame :=
  goodFramesFrom storage crc32 [] bytes

/-- A packet has no framing error, or has no frame and ends where a frame may start. -/
def Resumes (storage : Storage) (crc32 : Bytes → UInt32) (r : SerialFrameReader) (bytes : Bytes) :
    Prop :=
  (∀ out ∈ (r.pushes storage crc32 bytes).2, out.toBool = true) ∨
    framesIn (r.pushes storage crc32 bytes).2 = [] ∧ (r.pushes storage crc32 bytes).1 = .new

instance decidableResumes (storage : Storage) (crc32 : Bytes → UInt32) (r : SerialFrameReader)
    (bytes : Bytes) : Decidable (Resumes storage crc32 r bytes) :=
  inferInstanceAs (Decidable (_ ∨ _))

section Line

variable {storage : Storage} {crc32 : Bytes → UInt32}

@[simp] theorem framesIn_nil : framesIn [] = [] := rfl

@[simp] theorem framesIn_append (xs ys : List (Except SerialFrameError (Option DecodedFrame))) :
    framesIn (xs ++ ys) = framesIn xs ++ framesIn ys := List.filterMap_append

theorem push_error {r : SerialFrameReader} {byte : UInt8} {e : SerialFrameError}
    (h : (r.push storage crc32 byte).2 = .error e) : (r.push storage crc32 byte).1 = .new := by
  rw [SerialFrameReader.push] at h ⊢
  split
  · rfl
  · split
    · rfl
    · simp_all

theorem feed_cases (r : SerialFrameReader) (bytes : Bytes) (frames : List DecodedFrame) :
    ((∀ out ∈ (r.pushes storage crc32 bytes).2, out.toBool = true) ∧
      r.feed storage crc32 bytes frames = ((r.pushes storage crc32 bytes).1,
        .ok (frames ++ framesIn (r.pushes storage crc32 bytes).2))) ∨
    (¬ ∀ out ∈ (r.pushes storage crc32 bytes).2, out.toBool = true) ∧
      ∃ e, r.feed storage crc32 bytes frames = (.new, .error e) := by
  induction bytes generalizing r frames with
  | nil => exact .inl ⟨by simp [SerialFrameReader.pushes], by
      simp [SerialFrameReader.pushes, SerialFrameReader.feed]⟩
  | cons byte bytes ih =>
    rcases hpush : r.push storage crc32 byte with ⟨next, e | _ | frame⟩
    · refine .inr ⟨?_, e, ?_⟩
      · simp [SerialFrameReader.pushes, hpush, Except.toBool]
      · have hnew : next = .new := by simpa [hpush] using push_error (congrArg Prod.snd hpush)
        rw [SerialFrameReader.feed, hpush, hnew]
    · rw [SerialFrameReader.feed, SerialFrameReader.pushes, hpush]
      simpa [framesIn, Except.toBool, Except.toOption] using ih next frames
    · rw [SerialFrameReader.feed, SerialFrameReader.pushes, hpush]
      simpa [framesIn, Except.toBool, Except.toOption] using ih next (frames ++ [frame])

def fed (r : SerialFrameReader × Except SerialFrameError (List DecodedFrame)) :
    SerialFrameReader × List DecodedFrame :=
  (r.1, r.2.toOption.getD [])

theorem fed_feed_iff (r : SerialFrameReader) (bytes : Bytes) :
    fed (r.feed storage crc32 bytes []) = ((r.pushes storage crc32 bytes).1,
      framesIn (r.pushes storage crc32 bytes).2) ↔ Resumes storage crc32 r bytes := by
  rcases feed_cases r bytes [] with ⟨hok, hfeed⟩ | ⟨herror, e, hfeed⟩
  · rw [hfeed]
    exact ⟨fun _ => .inl hok, fun _ => rfl⟩
  · rw [hfeed, fed, Prod.mk.injEq]
    constructor
    · rintro ⟨hreader, hframes⟩
      exact .inr ⟨hframes.symm, hreader.symm⟩
    · rintro (hok | ⟨hframes, hreader⟩)
      · exact absurd hok herror
      · exact ⟨hreader.symm, hframes.symm⟩

theorem row_setReader (interface k : ℕ) (r : SerialFrameReader)
    (readers : List (ℕ × SerialFrameReader)) :
    KeyedRows.row (setReader interface r readers) k =
      if interface = k then some r else KeyedRows.row readers k := by
  induction readers with
  | nil => rw [setReader, KeyedRows.row_cons]
  | cons row readers ih =>
    obtain ⟨id, old⟩ := row
    rw [setReader]
    split
    · rename_i hid
      subst hid
      simp only [KeyedRows.row_cons]
      split <;> rfl
    · rename_i hid
      simp only [KeyedRows.row_cons, ih]
      by_cases hk : id = k
      · subst hk
        simp [Ne.symm hid]
      · simp [hk]

theorem readerOf_register (line : SerialLine) (interface k : ℕ) :
    (line.register interface).readerOf k = line.readerOf k := by
  rw [SerialLine.register]
  split
  · rfl
  · rename_i hnew
    simp only [SerialLine.readerOf, KeyedRows.row, List.find?_append]
    generalize line.readers.find? (·.1 = k) = found
    rcases found with _ | found
    · by_cases hk : interface = k <;> simp [hk]
    · simp

theorem note_readers (line : SerialLine) (frame : SerialFrame) :
    (line.note frame).readers = line.readers := by
  rw [SerialLine.note]
  split
  · rfl
  · cases roleOf frame.header <;> rfl

theorem foldl_note_readers (line : SerialLine) (frames : List SerialFrame) :
    (frames.foldl SerialLine.note line).readers = line.readers := by
  induction frames generalizing line with
  | nil => rfl
  | cons frame frames ih => rw [List.foldl_cons, ih, note_readers]

theorem fedFrames_snd (interface index : ℕ) (census : SerialCensus)
    (result : Except SerialFrameError (List DecodedFrame)) :
    (fedFrames interface index census result).2 =
      (result.toOption.getD []).map fun f => ⟨interface, index, f.header, f.payload⟩ := by
  rcases result with e | frames
  · cases e <;> rfl
  · rfl

theorem push_eq (line : SerialLine) (interface index : ℕ) (bytes : Bytes) :
    (line.push storage crc32 interface index bytes).2 =
        (fed ((line.readerOf interface).feed storage crc32 bytes [])).2.map
          (fun f => ⟨interface, index, f.header, f.payload⟩) ∧
      ∀ k, (line.push storage crc32 interface index bytes).1.readerOf k =
        if interface = k then (fed ((line.readerOf interface).feed storage crc32 bytes [])).1
        else line.readerOf k := by
  have hreader (census : SerialCensus) (k : ℕ) :
      ({ line with census := census }.register interface).readerOf k = line.readerOf k := by
    rw [readerOf_register]
    rfl
  refine ⟨?_, fun k => ?_⟩
  · simp only [SerialLine.push, fedFrames_snd, hreader]
    rfl
  · have hset {readers : List (ℕ × SerialFrameReader)} {r : SerialFrameReader} :
        (KeyedRows.row (setReader interface r readers) k).getD SerialFrameReader.new =
          if interface = k then r else (KeyedRows.row readers k).getD SerialFrameReader.new := by
      rw [row_setReader]
      split <;> rfl
    rw [SerialLine.readerOf, SerialLine.push]
    simp only [foldl_note_readers, hset, hreader]
    congr 1
    exact hreader _ k

theorem framesIn_cons_ok (frame : Option DecodedFrame)
    (outs : List (Except SerialFrameError (Option DecodedFrame))) :
    framesIn (.ok frame :: outs) = frame.toList ++ framesIn outs := by
  cases frame <;> rfl

theorem framesIn_cons_error (e : SerialFrameError)
    (outs : List (Except SerialFrameError (Option DecodedFrame))) :
    framesIn (.error e :: outs) = framesIn outs := rfl

theorem framesIn_sublist_cons (out : Except SerialFrameError (Option DecodedFrame))
    (outs : List (Except SerialFrameError (Option DecodedFrame))) :
    (framesIn outs).Sublist (framesIn (out :: outs)) := by
  rcases out with e | frame
  · rw [framesIn_cons_error]
  · rw [framesIn_cons_ok]
    exact List.sublist_append_right _ _

/-- Every stretch that fits and decodes is found, whatever stands around it. -/
theorem goodFramesFrom_sublist (r : SerialFrameReader) (span bytes : Bytes)
    (h : span.length ≤ serialMaxCobsBuf → r.buf = span) :
    (goodFramesFrom storage crc32 span bytes).Sublist
      (framesIn (r.pushes storage crc32 bytes).2) := by
  induction bytes generalizing r span with
  | nil => exact List.nil_sublist _
  | cons byte bytes ih =>
    rw [goodFramesFrom, stretches, SerialFrameReader.pushes, SerialFrameReader.push]
    by_cases hbyte : byte = 0
    · rw [if_pos hbyte, if_pos (show byte = serialEop from hbyte)]
      have hrest := ih .new [] fun _ => rfl
      by_cases hspan : span.length ≤ serialMaxCobsBuf
      · rw [List.filter_cons_of_pos (by simpa using hspan), h hspan]
        rcases hdecode : decodeFrame storage crc32 span with e | frame
        · rw [List.filterMap_cons_none (by rw [hdecode]; rfl)]
          exact hrest
        · rw [List.filterMap_cons_some (by rw [hdecode]; rfl)]
          exact hrest.cons_cons frame
      · rw [List.filter_cons_of_neg (by simpa using hspan)]
        exact hrest.trans (framesIn_sublist_cons _ _)
    · rw [if_neg hbyte, if_neg (show ¬ byte = serialEop from hbyte)]
      split
      · rename_i hfull
        refine ih .new _ fun hlong => absurd hlong ?_
        rw [List.length_append, List.length_singleton]
        intro hshort
        rw [h (by omega)] at hfull
        omega
      · refine ih ⟨r.buf ++ [byte]⟩ _ fun hshort => ?_
        rw [List.length_append, List.length_singleton] at hshort
        rw [h (by omega)]

theorem goodFrames_sublist (bytes : Bytes) : (goodFrames storage crc32 bytes).Sublist
    (framesIn (SerialFrameReader.new.pushes storage crc32 bytes).2) :=
  goodFramesFrom_sublist .new [] bytes fun _ => rfl

/-- The packets of an interface resume where its reader is. -/
def Resuming (storage : Storage) (crc32 : Bytes → UInt32) (interface : ℕ) (line : SerialLine)
    (p : Packet) : Prop :=
  p.interface = interface → Resumes storage crc32 (line.readerOf interface) p.bytes

instance decidableResuming (storage : Storage) (crc32 : Bytes → UInt32) (interface : ℕ)
    (line : SerialLine) (p : Packet) : Decidable (Resuming storage crc32 interface line p) :=
  inferInstanceAs (Decidable (_ → _))

theorem returned_cons (interface : ℕ) (out : List SerialFrame) (outs : List (List SerialFrame)) :
    returned interface (out :: outs) = returned interface [out] ++ returned interface outs := by
  simp [returned]

theorem returned_of_interface (interface index : ℕ) (frames : List DecodedFrame) :
    returned interface [frames.map fun f => ⟨interface, index, f.header, f.payload⟩] = frames := by
  induction frames with
  | nil => rfl
  | cons frame frames ih => simpa [returned] using ih

theorem push_returned (line : SerialLine) (interface : ℕ) (p : Packet)
    (h : Resuming storage crc32 interface line p) :
    returned interface [(line.push storage crc32 p.interface p.index p.bytes).2] =
        framesIn ((line.readerOf interface).pushes storage crc32 (stream interface [p])).2 ∧
      (line.push storage crc32 p.interface p.index p.bytes).1.readerOf interface =
        ((line.readerOf interface).pushes storage crc32 (stream interface [p])).1 := by
  obtain ⟨hout, hreader⟩ := @push_eq storage crc32 line p.interface p.index p.bytes
  rw [hout, hreader]
  by_cases hp : p.interface = interface
  · have hfed := (fed_feed_iff _ _).mpr (h hp)
    subst hp
    rw [hfed, returned_of_interface, if_pos rfl]
    simp [stream]
  · simp [returned, stream, hp, SerialFrameReader.pushes]

theorem stream_cons (interface : ℕ) (p : Packet) (packets : List Packet) :
    stream interface (p :: packets) = stream interface [p] ++ stream interface packets := by
  by_cases hp : p.interface = interface <;> simp [stream, hp]

theorem run_returned (interface : ℕ) {packets : List Packet} {line : SerialLine}
    (h : Steps.Along (step storage crc32) (Resuming storage crc32 interface) line packets) :
    ∃ line' outs, Steps.run (step storage crc32) line packets = some (line', outs) ∧
      returned interface outs = framesIn ((line.readerOf interface).pushes storage crc32
        (stream interface packets)).2 := by
  induction packets generalizing line with
  | nil => exact ⟨line, [], rfl, rfl⟩
  | cons p packets ih =>
    obtain ⟨hfirst, hreader⟩ := push_returned line interface p h.1
    have hstep : step storage crc32 line p =
        some (line.push storage crc32 p.interface p.index p.bytes) := rfl
    generalize line.push storage crc32 p.interface p.index p.bytes = pushed at *
    obtain ⟨line', outs, hrun, hrest⟩ := ih (h.2 _ _ hstep)
    refine ⟨line', pushed.2 :: outs, Steps.run_cons hstep hrun, ?_⟩
    rw [returned_cons, hfirst, hrest, hreader, stream_cons interface p packets,
      SerialFrameReader.pushes_append, framesIn_append]

/-- Where every packet of an interface resumes, the packets return the frames of its bytes, however
they are cut, and among them those of every stretch that decodes. -/
theorem damaged_frame_costs_itself (storage : Storage) (crc32 : Bytes → UInt32)
    (limit : Option ℕ) (interface : ℕ) (packets : List Packet)
    (h : Steps.Along (step storage crc32) (Resuming storage crc32 interface)
      (SerialLine.withLimit limit) packets) :
    ∃ line outs, Steps.run (step storage crc32) (SerialLine.withLimit limit) packets =
        some (line, outs) ∧
      returned interface outs = framesIn (SerialFrameReader.new.pushes storage crc32
        (stream interface packets)).2 ∧
      (goodFrames storage crc32 (stream interface packets)).Sublist (returned interface outs) := by
  obtain ⟨line, outs, hrun, hreturned⟩ := run_returned interface h
  refine ⟨line, outs, hrun, hreturned, ?_⟩
  rw [hreturned]
  exact goodFrames_sublist _

/-- Two packets that cut a damaged stretch from the frame behind it. -/
def cutBehind : List Packet := [⟨0, 0, [5, 0]⟩, ⟨0, 1, [1, 1, 1, 1, 1, 1, 1, 1, 0]⟩]

theorem damaged_frame_costs_itself_cut :
    ∃ line outs, Steps.run (step .growing fun _ => 0) (SerialLine.withLimit none) cutBehind =
        some (line, outs) ∧
      returned 0 outs = framesIn (SerialFrameReader.new.pushes .growing (fun _ => 0)
        (stream 0 cutBehind)).2 ∧
      (goodFrames .growing (fun _ => 0) (stream 0 cutBehind)).Sublist (returned 0 outs) :=
  damaged_frame_costs_itself .growing (fun _ => 0) none 0 cutBehind
    (Steps.along_of_check (p := fun line p => decide (Resuming .growing (fun _ => 0) 0 line p))
      (fun _ _ h => of_decide_eq_true h) (by decide +kernel))

/-- In one packet the damaged stretch takes the frame behind it away. -/
theorem damaged_frame_takes_the_next :
    (Steps.run (step .growing fun _ => 0) (SerialLine.withLimit none) cutBehind).map
        (returned 0 ·.2) = some [⟨0, []⟩] ∧
      (Steps.run (step .growing fun _ => 0) (SerialLine.withLimit none)
        [⟨0, 0, [5, 0, 1, 1, 1, 1, 1, 1, 1, 1, 0]⟩]).map (returned 0 ·.2) = some [] ∧
      stream 0 cutBehind = stream 0 [⟨0, 0, [5, 0, 1, 1, 1, 1, 1, 1, 1, 1, 0]⟩] ∧
      goodFrames .growing (fun _ => 0) (stream 0 cutBehind) = [⟨0, []⟩] := by
  decide +kernel

end Line

end WatchingZenoh.SerialLine
