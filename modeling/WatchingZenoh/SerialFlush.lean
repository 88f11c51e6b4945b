import Mathlib
import WatchingZenoh.SerialFrames
import WatchingZenoh.Library.Steps

/-! The handshake of a serial link, and the INIT an accepting side carries across a flush. A frame has
no mark at its start, so behind stale bytes each offset from which the blocks end with the span is
tried. -/

namespace WatchingZenoh.SerialLink
open Cobs

def serialFlagInit : UInt8 := 0x01

def serialFlagAck : UInt8 := 0x02

def serialFlagReset : UInt8 := 0x04

def hasFlag (header flag : UInt8) : Bool := header &&& flag != 0

inductive SerialRole
  | initiator
  | responder
  deriving DecidableEq, Repr

inductive HandshakeStep
  | emitAndConnect (bytes : Bytes)
  | connected
  | throttle
  | failed
  deriving DecidableEq, Repr

section Flush

variable (storage : Storage) (crc32 : Bytes → UInt32)

theorem encodeFrame_empty_isSome (header : UInt8) :
    (encodeFrame storage crc32 header []).toOption.isSome := by
  obtain ⟨groups, -, hencode⟩ :=
    @exists_encodeFrame storage crc32 header [] (Nat.zero_le serialMtu)
  rw [hencode]
  rfl

/-- A frame with no payload, which is within the MTU. -/
def emptyFrame (header : UInt8) : Bytes :=
  (encodeFrame storage crc32 header []).toOption.get (encodeFrame_empty_isSome storage crc32 header)

/-- What a side does on the header of a frame it received. -/
def onHeader (role : SerialRole) (header : UInt8) : HandshakeStep :=
  match role with
  | .initiator =>
    if hasFlag header serialFlagInit && hasFlag header serialFlagAck then .connected
    else if hasFlag header serialFlagReset then .throttle
    else .failed
  | .responder =>
    if hasFlag header serialFlagInit && !hasFlag header serialFlagAck then
      .emitAndConnect (emptyFrame storage crc32 (serialFlagInit ||| serialFlagAck))
    else .failed

/-- The header of a frame that a responder takes as its opener. -/
def openerHeader (wire : Bytes) : Option UInt8 :=
  match decodeFrame storage crc32 wire with
  | .error _ => none
  | .ok frame =>
    match onHeader storage crc32 .responder frame.header with
    | .emitAndConnect _ => some frame.header
    | _ => none

/-- The first opener that ends with the span, of the offsets a frame could start at. -/
def initHeaderEndingAt (span : Bytes) : Option UInt8 :=
  let windowStart := span.length - serialMaxCobsBuf
  let window := span.drop windowStart
  let lands := landings window
  ((List.range window.length).filter fun start =>
    windowStart + start = 0 || lands.getD start false).findSome? fun start =>
      openerHeader storage crc32 (window.drop start)

/-- The span that is not ended yet, and the last opener found. -/
structure Flush where
  span : Bytes
  init : Option UInt8
  deriving DecidableEq, Repr

def Flush.step (f : Flush) (byte : UInt8) : Flush :=
  if byte = serialEop then ⟨[], (initHeaderEndingAt storage crc32 f.span).or f.init⟩
  else ⟨f.span ++ [byte], f.init⟩

/-- The bytes the device had received, span by span. -/
def pendingInitHeader (received : Bytes) : Option UInt8 :=
  (received.foldl (Flush.step storage crc32) ⟨[], none⟩).init

end Flush

def Opener (header : UInt8) : Prop :=
  hasFlag header serialFlagInit = true ∧ hasFlag header serialFlagAck = false

instance decidableOpener (header : UInt8) : Decidable (Opener header) :=
  inferInstanceAs (Decidable (_ ∧ _))

/-- The bytes between two zero bytes, or between the start and the first one. -/
def Stretch (received stretch : Bytes) : Prop :=
  ∃ front back, received = front ++ stretch ++ 0 :: back ∧ 0 ∉ stretch ∧
    (front = [] ∨ front.getLast? = some 0)

section Flush

variable {storage : Storage} {crc32 : Bytes → UInt32}

theorem onHeader_responder (header : UInt8) :
    onHeader storage crc32 .responder header =
      if Opener header then
        .emitAndConnect (emptyFrame storage crc32 (serialFlagInit ||| serialFlagAck))
      else .failed := by
  simp only [onHeader, Opener, Bool.and_eq_true, Bool.not_eq_true']
  congr

theorem openerHeader_eq_some_iff {wire : Bytes} {header : UInt8} :
    openerHeader storage crc32 wire = some header ↔
      Opener header ∧ ∃ payload, decodeFrame storage crc32 wire = .ok ⟨header, payload⟩ := by
  rw [openerHeader]
  rcases decodeFrame storage crc32 wire with e | ⟨first, payload⟩
  · simp
  · by_cases hopener : Opener first
    · simp only [onHeader_responder, if_pos hopener, Option.some.injEq, Except.ok.injEq,
        DecodedFrame.mk.injEq]
      constructor
      · rintro rfl
        exact ⟨hopener, payload, rfl, rfl⟩
      · rintro ⟨-, -, rfl, -⟩
        rfl
    · simp only [onHeader_responder, if_neg hopener, reduceCtorEq, false_iff, Except.ok.injEq,
        DecodedFrame.mk.injEq, not_and]
      rintro hheader ⟨-, rfl, -⟩
      exact hopener hheader

theorem initHeaderEndingAt_sound {span : Bytes} {header : UInt8}
    (h : initHeaderEndingAt storage crc32 span = some header) :
    Opener header ∧ ∃ suffix payload, suffix <:+ span ∧
      decodeFrame storage crc32 suffix = .ok ⟨header, payload⟩ := by
  obtain ⟨start, -, hstart⟩ := List.exists_of_findSome?_eq_some h
  obtain ⟨hopener, payload, hdecode⟩ := openerHeader_eq_some_iff.mp hstart
  exact ⟨hopener, _, payload, (List.drop_suffix _ _).trans (List.drop_suffix _ _), hdecode⟩

theorem initHeaderEndingAt_frame {header : UInt8} {payload : Bytes} {groups : List Bytes}
    (h : FrameGroups crc32 header payload groups) (hopener : Opener header) (stale : Bytes) :
    (initHeaderEndingAt storage crc32 (stale ++ lay groups)).isSome := by
  have hlength := h.1
  rw [initHeaderEndingAt, List.findSome?_isSome_iff]
  generalize hstart : (stale ++ lay groups).length - serialMaxCobsBuf = windowStart
  have hmax : serialMaxCobsBuf = 1516 := rfl
  have hnonempty : 0 < (lay groups).length := by
    obtain ⟨group, groups, rfl⟩ := List.exists_cons_of_ne_nil h.2.choose_spec.ne_nil
    simp
  rw [List.length_append] at hstart
  have hwindow : (stale ++ lay groups).drop windowStart = stale.drop windowStart ++ lay groups := by
    rw [List.drop_append_of_le_length (by omega)]
  refine ⟨(stale.drop windowStart).length, ?_, ?_⟩
  · rw [hwindow, List.mem_filter, landings_getD_append, h.lands]
    simp only [List.mem_range, List.length_append, List.length_drop, Bool.or_true, and_true]
    omega
  · rw [hwindow, List.drop_left, Option.isSome_iff_exists]
    exact ⟨header, openerHeader_eq_some_iff.mpr ⟨hopener, payload,
      by simpa using h.decodeFrame_eq storage (Or.inl rfl)⟩⟩

theorem foldl_step_found {f : Flush} (h : ∃ header, f.init = some header ∧ Opener header)
    (bytes : Bytes) :
    ∃ header, (bytes.foldl (Flush.step storage crc32) f).init = some header ∧ Opener header := by
  have hstep (past : Bytes) (f : Flush) (byte : UInt8)
      (h : ∃ header, f.init = some header ∧ Opener header) :
      ∃ header, (f.step storage crc32 byte).init = some header ∧ Opener header := by
    obtain ⟨header, hinit, hopener⟩ := h
    rw [Flush.step]
    split
    · rcases hspan : initHeaderEndingAt storage crc32 f.span with _ | later
      · exact ⟨header, hinit, hopener⟩
      · exact ⟨later, rfl, (initHeaderEndingAt_sound hspan).1⟩
    · exact ⟨header, hinit, hopener⟩
  exact Steps.foldl_keeps hstep bytes [] h

theorem foldl_step_body (f : Flush) {body : Bytes} (h : 0 ∉ body) :
    body.foldl (Flush.step storage crc32) f = ⟨f.span ++ body, f.init⟩ := by
  induction body generalizing f with
  | nil => simp
  | cons byte body ih =>
    rw [List.mem_cons, not_or] at h
    rw [List.foldl_cons, ih _ h.2, Flush.step, serialEop, if_neg (Ne.symm h.1)]
    simp

theorem Stretch.append {past stretch : Bytes} (h : Stretch past stretch) (byte : UInt8) :
    Stretch (past ++ [byte]) stretch := by
  obtain ⟨front, back, rfl, hzero, hfront⟩ := h
  exact ⟨front, back ++ [byte], by simp, hzero, hfront⟩

/-- A stretch of the bytes ends with a frame that opens with this header. -/
def Opened (storage : Storage) (crc32 : Bytes → UInt32) (received : Bytes) (header : UInt8) :
    Prop :=
  Opener header ∧ ∃ stretch suffix payload, Stretch received stretch ∧ suffix <:+ stretch ∧
    decodeFrame storage crc32 suffix = .ok ⟨header, payload⟩

/-- What a flush knows of the bytes it went through. -/
structure Flushed (storage : Storage) (crc32 : Bytes → UInt32) (past : Bytes) (f : Flush) :
    Prop where
  span : ∃ front, past = front ++ f.span ∧ (front = [] ∨ front.getLast? = some 0)
  nonzero : 0 ∉ f.span
  init : ∀ header, f.init = some header → Opened storage crc32 past header

theorem Flushed.step {past : Bytes} {f : Flush} (h : Flushed storage crc32 past f)
    (byte : UInt8) : Flushed storage crc32 (past ++ [byte]) (f.step storage crc32 byte) := by
  obtain ⟨front, hpast, hfront⟩ := h.span
  have hkept (header : UInt8) (hinit : f.init = some header) :
      Opened storage crc32 (past ++ [byte]) header := by
    obtain ⟨hopener, stretch, suffix, payload, hstretch, hrest⟩ := h.init header hinit
    exact ⟨hopener, stretch, suffix, payload, hstretch.append byte, hrest⟩
  rw [Flush.step]
  split
  · rename_i hbyte
    subst hbyte
    refine ⟨⟨past ++ [0], by simp [serialEop], by simp⟩, by simp, fun header hheader => ?_⟩
    rcases hspan : initHeaderEndingAt storage crc32 f.span with _ | later
    · exact hkept header (by simpa [hspan] using hheader)
    · obtain rfl : later = header := by simpa [hspan] using hheader
      obtain ⟨hopener, suffix, payload, hsuffix, hdecode⟩ := initHeaderEndingAt_sound hspan
      have hstretch : Stretch (past ++ [serialEop]) f.span :=
        ⟨front, [], by rw [hpast]; rfl, h.nonzero, hfront⟩
      exact ⟨hopener, f.span, suffix, payload, hstretch, hsuffix, hdecode⟩
  · rename_i hbyte
    refine ⟨⟨front, by simp [hpast], hfront⟩, ?_, hkept⟩
    simpa using ⟨h.nonzero, Ne.symm hbyte⟩

theorem pendingInitHeader_opened {received : Bytes} {header : UInt8}
    (h : pendingInitHeader storage crc32 received = some header) :
    Opened storage crc32 received header := by
  have hstart : Flushed storage crc32 [] ⟨[], none⟩ :=
    ⟨⟨[], rfl, Or.inl rfl⟩, by simp, by simp⟩
  have hend := Steps.foldl_keeps (fun _ _ byte h => h.step byte) received [] hstart
  exact hend.init header h

end Flush

/-- An accepting side never loses an opener in a flush, and takes nothing else for one. -/
theorem pending_init_not_lost (storage : Storage) (crc32 : Bytes → UInt32) :
    (∀ (s t : Bytes) (header : UInt8) (payload : Bytes), Opener header → payload.length ≤ 1500 →
      ∃ frame found, encodeFrame storage crc32 header payload = .ok frame ∧
        pendingInitHeader storage crc32 (s ++ frame ++ t) = some found ∧ Opener found) ∧
    ∀ received : Bytes, (∀ stretch suffix frame, Stretch received stretch → suffix <:+ stretch →
      decodeFrame storage crc32 suffix = .ok frame → ¬ Opener frame.header) →
        pendingInitHeader storage crc32 received = none := by
  constructor
  · intro s t header payload hopener hpayload
    obtain ⟨groups, hgroups, hencode⟩ := exists_encodeFrame storage crc32 header hpayload
    refine ⟨lay groups ++ [0], ?_⟩
    rw [pendingInitHeader, List.foldl_append, List.foldl_append, List.foldl_append,
      foldl_step_body _ hgroups.zero_not_mem, List.foldl_cons, List.foldl_nil]
    generalize s.foldl (Flush.step storage crc32) ⟨[], none⟩ = f
    obtain ⟨first, hfirst⟩ := Option.isSome_iff_exists.mp
      (@initHeaderEndingAt_frame storage crc32 _ _ _ hgroups hopener f.span)
    obtain ⟨found, hfound, hopens⟩ := @foldl_step_found storage crc32
      (Flush.step storage crc32 ⟨f.span ++ lay groups, f.init⟩ 0)
      ⟨first, by simp [Flush.step, serialEop, hfirst], (initHeaderEndingAt_sound hfirst).1⟩ t
    exact ⟨found, hencode, hfound, hopens⟩
  · intro received hnone
    by_contra hsome
    obtain ⟨header, hheader⟩ := Option.ne_none_iff_exists'.mp hsome
    obtain ⟨hopener, stretch, suffix, payload, hstretch, hsuffix, hdecode⟩ :=
      pendingInitHeader_opened hheader
    exact hnone stretch suffix _ hstretch hsuffix hdecode hopener

theorem pending_init_not_lost_stale : ∃ frame found, encodeFrame .growing (fun _ => 0) 1 [] =
    .ok frame ∧ pendingInitHeader .growing (fun _ => 0) ([7, 7] ++ frame ++ [3]) = some found ∧
      Opener found :=
  (pending_init_not_lost .growing fun _ => 0).1 [7, 7] [3] 1 [] (by decide) (by simp)

end WatchingZenoh.SerialLink
