import Mathlib
import WatchingZenoh.SerialLink

/-! What the frames of a serial link carry. The stuffer cuts the frame into groups and lays them, the
destuffer joins the groups it finds laid, and the reader finds the frame again behind any zero byte. -/

namespace WatchingZenoh.SerialLink
open LittleEndian Cobs

theorem scan_append (room : ℕ) (rest : Bytes) : (scan room rest).1 ++ (scan room rest).2 = rest := by
  fun_induction scan room rest <;> simp_all

theorem zero_not_mem_scan (room : ℕ) (rest : Bytes) : 0 ∉ (scan room rest).1 := by
  fun_induction scan room rest with
  | case4 room byte rest hbyte ih => simpa using ⟨Ne.symm hbyte, ih⟩
  | _ => simp

theorem length_scan_le (room : ℕ) (rest : Bytes) : (scan room rest).1.length ≤ room := by
  fun_induction scan room rest <;> simp_all

theorem scan_behind {room : ℕ} {rest behind : Bytes} {byte : UInt8}
    (h : (scan room rest).2 = byte :: behind) (hroom : (scan room rest).1.length < room) :
    byte = 0 := by
  fun_induction scan room rest with
  | case1 rest => simp at hroom
  | case2 => simp at h
  | case3 room rest => simpa using (List.cons.inj h).1.symm
  | case4 room first rest hfirst ih => exact ih h (by simpa using hroom)

section Lists

variable (storage : Storage)

theorem push_eq {cap : ℕ} {out : Bytes} (h : out.length < cap) (byte : UInt8) :
    push storage cap out byte = some (out ++ [byte]) := by
  rw [push, if_neg]
  rintro ⟨-, hfull⟩
  omega

theorem foldlM_push {cap : ℕ} (bytes out : Bytes) (h : out.length + bytes.length ≤ cap) :
    bytes.foldlM (push storage cap) out = some (out ++ bytes) := by
  induction bytes generalizing out with
  | nil => simp
  | cons byte bytes ih =>
    rw [List.length_cons] at h
    rw [List.foldlM_cons, push_eq storage (by omega), Option.bind_eq_bind, Option.bind_some,
      ih _ (by simp only [List.length_append, List.length_singleton]; omega), List.append_assoc]
    rfl

theorem copyGroup_eq (group rest out : Bytes) (h : out.length + group.length ≤ serialMfs) :
    copyGroup storage group.length (group ++ rest) out = some (rest, out ++ group) := by
  induction group generalizing out with
  | nil => simp [copyGroup]
  | cons byte group ih =>
    rw [List.length_cons] at h
    rw [List.length_cons, List.cons_append, copyGroup, push_eq storage (by omega),
      Option.bind_eq_bind, Option.bind_some,
      ih _ (by simp only [List.length_append, List.length_singleton]; omega), List.append_assoc]
    rfl

theorem stuffLoop_succ {rest out : Bytes} (fuel : ℕ)
    (h : out.length + 1 + (scan 254 rest).1.length ≤ serialMaxCobsBuf) :
    stuffLoop storage (fuel + 1) rest out =
      (((afterGroup (scan 254 rest).1.length (scan 254 rest).2).1.toList.foldlM
        (push storage serialMaxCobsBuf) (out ++ block (scan 254 rest).1)).bind fun out =>
        (afterGroup (scan 254 rest).1.length (scan 254 rest).2).2.elim (some out)
          fun next => stuffLoop storage fuel next out) := by
  rw [stuffLoop, push_eq storage (by omega), Option.bind_eq_bind, Option.bind_some,
    foldlM_push storage _ _ (by simp only [List.length_append, List.length_singleton]; omega),
    Option.bind_some, List.append_assoc]
  rcases afterGroup (scan 254 rest).1.length (scan 254 rest).2 with ⟨tail, next | next⟩ <;> rfl

theorem stuffLoop_lays (fuel : ℕ) (rest : Bytes) (h : rest.length < fuel) :
    ∃ groups, Cut 254 rest groups ∧ ∀ out : Bytes,
      out.length + (lay groups).length ≤ serialMaxCobsBuf →
        stuffLoop storage fuel rest out = some (out ++ lay groups) := by
  induction fuel generalizing rest with
  | zero => omega
  | succ fuel ih =>
    have hwhole := scan_append 254 rest
    have hzero := zero_not_mem_scan 254 rest
    have hlength := length_scan_le 254 rest
    have hstep {out : Bytes} := @stuffLoop_succ storage rest out fuel
    have hbehind {byte behind} := @scan_behind 254 rest behind byte
    generalize (scan 254 rest).1 = group at *
    generalize (scan 254 rest).2 = behind at *
    subst hwhole
    have hempty : Cut 254 [] [[]] := .last (by simp) (by simp)
    rcases behind with _ | ⟨byte, behind⟩
    · rcases Nat.lt_or_ge group.length 254 with hshort | hfull
      · refine ⟨[group], by simpa using Cut.last hshort hzero, fun out hout => ?_⟩
        simp only [lay_cons, lay_nil, List.append_nil, List.length_cons] at hout
        rw [hstep (by omega), afterGroup, if_neg (by omega)]
        simp [block]
      · refine ⟨[group, []], Cut.full (by omega) hzero hempty, fun out hout => ?_⟩
        simp only [lay_cons, lay_nil, List.length_cons, List.length_append, List.length_nil] at hout
        rw [hstep (by omega), afterGroup, if_pos hfull]
        simp only [Option.toList_some, Option.elim_none]
        rw [foldlM_push storage _ _ (by simp [block]; omega)]
        simp [block]
    · rcases Nat.lt_or_ge group.length 254 with hshort | hfull
      · obtain rfl := hbehind rfl hshort
        rcases behind with _ | ⟨next, behind⟩
        · refine ⟨[group, []], Cut.zero hshort hzero hempty, fun out hout => ?_⟩
          simp only [lay_cons, lay_nil, List.length_cons, List.length_append, List.length_nil]
            at hout
          rw [hstep (by omega), afterGroup, if_pos hshort, if_pos rfl]
          simp only [Option.toList_some, Option.elim_none]
          rw [foldlM_push storage _ _ (by simp [block]; omega)]
          simp [block]
        · obtain ⟨groups, hcut, hlays⟩ := ih (next :: behind) (by simp at h ⊢; omega)
          refine ⟨group :: groups, hcut.zero hshort hzero, fun out hout => ?_⟩
          simp only [lay_cons, List.length_cons, List.length_append] at hout
          rw [hstep (by omega), afterGroup, if_pos hshort, if_neg (by simp)]
          simp only [Option.toList_none, List.foldlM_nil, Option.elim_some, Option.pure_def,
            Option.bind_some]
          rw [hlays _ (by simp [block]; omega)]
          simp [block]
      · obtain ⟨groups, hcut, hlays⟩ := ih (byte :: behind) (by simp at h ⊢; omega)
        refine ⟨group :: groups, hcut.full (by omega) hzero, fun out hout => ?_⟩
        simp only [lay_cons, List.length_cons, List.length_append] at hout
        rw [hstep (by omega), afterGroup, if_neg (by omega)]
        simp only [Option.toList_none, List.foldlM_nil, Option.elim_some, Option.pure_def,
          Option.bind_some]
        rw [hlays _ (by simp [block]; omega)]
        simp [block]

theorem cobsEncode_lays {data : Bytes} (h : data.length ≤ serialMfs) :
    ∃ groups, Cut 254 data groups ∧ (lay groups).length ≤ 1513 ∧
      cobsEncode storage data = some (lay groups) := by
  have hmfs : serialMfs = 1507 := rfl
  obtain ⟨groups, hcut, hlays⟩ := stuffLoop_lays storage (data.length + 1) data (by omega)
  have hlay := hcut.length_lay_le (by omega)
  have hruns : data.length / 254 ≤ 5 := by omega
  have hmost : (lay groups).length ≤ 1513 := by omega
  refine ⟨groups, hcut, hmost, ?_⟩
  rw [cobsEncode, Nat.mod_eq_of_lt (by omega), List.take_length,
    hlays [] (by simp only [List.length_nil, serialMaxCobsBuf]; omega)]
  rfl

/-- The zero a group owes to the one before it. -/
def owed (prev : ℕ) : Bytes := if prev ≠ 255 then [0] else []

theorem owed_code {group : Bytes} (h : group.length ≤ 254) :
    owed (UInt8.ofNat (group.length + 1)).toNat = gap 254 group := by
  rw [owed, gap, code_toNat h]
  by_cases hfull : group.length = 254 <;> simp [hfull]

theorem destuffLoop_cons {group rest out : Bytes} (fuel prev : ℕ) (hgroup : group.length ≤ 254)
    (h : out.length + (owed prev).length + group.length ≤ serialMfs) :
    destuffLoop storage (fuel + 1) prev (.ofNat (group.length + 1) :: (group ++ rest)) out =
      destuffLoop storage fuel (UInt8.ofNat (group.length + 1)).toNat rest
        (out ++ owed prev ++ group) := by
  have hzero : pushZero storage prev out = some (out ++ owed prev) := by
    rw [pushZero, owed]
    rw [owed] at h
    split at h
    · simp only [List.length_singleton] at h
      rw [if_pos ‹_›, if_pos ‹_›, push_eq storage (by omega)]
    · rw [if_neg ‹_›, if_neg ‹_›, List.append_nil]
  rw [destuffLoop, if_neg (code_ne_zero hgroup), hzero, Option.bind_eq_bind, Option.bind_some,
    code_toNat hgroup, Nat.add_sub_cancel,
    copyGroup_eq storage group rest _ (by simpa using h), Option.bind_eq_bind, Option.bind_some]

theorem destuffLoop_ends (fuel prev : ℕ) {tail : Bytes} (h : tail = [] ∨ tail.head? = some 0)
    (out : Bytes) : destuffLoop storage fuel prev tail out = some out := by
  rcases fuel with _ | fuel
  · rfl
  · rcases tail with _ | ⟨code, tail⟩
    · rfl
    · obtain rfl : code = 0 := by simpa using h
      simp [destuffLoop]

theorem destuffLoop_joins {groups : List Bytes} (hne : groups ≠ [])
    (hgroups : ∀ group ∈ groups, group.length ≤ 254) {tail : Bytes}
    (htail : tail = [] ∨ tail.head? = some 0) {fuel : ℕ} (hfuel : (lay groups).length ≤ fuel)
    (prev : ℕ) (out : Bytes)
    (h : out.length + (owed prev).length + (join 254 groups).length ≤ serialMfs) :
    destuffLoop storage fuel prev (lay groups ++ tail) out =
      some (out ++ owed prev ++ join 254 groups) := by
  induction groups generalizing fuel prev out with
  | nil => exact absurd rfl hne
  | cons group groups ih =>
    obtain ⟨hgroup, hrest⟩ := List.forall_mem_cons.mp hgroups
    simp only [lay_cons, List.length_cons, List.length_append] at hfuel
    obtain ⟨fuel, rfl⟩ : ∃ f, fuel = f + 1 := ⟨fuel - 1, by omega⟩
    rcases eq_or_ne groups [] with rfl | hmore
    · rw [lay_cons, lay_nil, List.append_nil, List.cons_append,
        destuffLoop_cons storage fuel prev hgroup h, destuffLoop_ends storage _ _ htail]
      rfl
    · rw [join_cons hmore, List.length_append, List.length_append, ← owed_code hgroup] at h
      rw [lay_cons, List.cons_append, List.append_assoc,
        destuffLoop_cons storage fuel prev hgroup (by omega),
        ih hmore hrest (by omega) _ _ (by simp only [List.length_append]; omega),
        join_cons hmore, owed_code hgroup]
      simp only [List.append_assoc]

theorem cobsDecode_joins {data : Bytes} {groups : List Bytes} (hcut : Cut 254 data groups)
    (hdata : data.length ≤ serialMfs) {tail : Bytes} (htail : tail = [] ∨ tail = [0])
    (hlay : (lay groups).length ≤ 1513) :
    cobsDecode storage (lay groups ++ tail) = some data := by
  have hlength : (lay groups ++ tail).length ≤ 1514 := by
    rw [List.length_append]
    rcases htail with rfl | rfl <;> simp <;> omega
  rw [cobsDecode, Nat.mod_eq_of_lt (by omega), List.take_length,
    destuffLoop_joins storage hcut.ne_nil (fun group hgroup => (hcut.group group hgroup).1)
      (by rcases htail with rfl | rfl <;> simp) (by simp; omega) 255 []
      (by simpa [hcut.join_eq, owed] using hdata), hcut.join_eq]
  rfl

end Lists

namespace SerialEnvelope

theorem length_encode (env : SerialEnvelope) : env.encode.length = env.payload.length + 7 := by
  simp only [encode, List.cons_append, List.length_cons, List.length_append, length_toLe]
  omega

theorem length_encode_le (env : SerialEnvelope) : env.encode.length ≤ serialMfs := by
  have hbounded := env.bounded
  have hmtu : serialMtu = 1500 := rfl
  have hmfs : serialMfs = 1507 := rfl
  rw [length_encode]
  omega

theorem decode_encode (env : SerialEnvelope) : decode env.encode = some (env, []) := by
  obtain ⟨header, payload, crc32, hbounded⟩ := env
  have hmtu : serialMtu = 1500 := rfl
  have hlen : ofLe (toLe 2 payload.length) = payload.length := by
    rw [ofLe_toLe, Nat.mod_eq_of_lt (by omega)]
  have hcrc : UInt32.ofNat (ofLe (toLe 4 crc32.toNat)) = crc32 := by
    rw [ofLe_toLe, Nat.mod_eq_of_lt (by simpa using crc32.toNat_lt)]
    simp
  have htwo : toLe 2 payload.length =
      [.ofNat payload.length, .ofNat (payload.length / 256)] := rfl
  rw [htwo] at hlen
  simp only [encode, htwo, List.cons_append, List.nil_append, decode, hlen]
  rw [dif_pos hbounded, if_pos (by simp)]
  simp [List.take_of_length_le, hcrc]

end SerialEnvelope

section Frames

variable (storage : Storage) (crc32 : Bytes → UInt32)

def FrameGroups (header : UInt8) (payload : Bytes) (groups : List Bytes) : Prop :=
  (lay groups).length ≤ 1513 ∧ ∃ h : payload.length ≤ serialMtu,
    Cut 254 (SerialEnvelope.encode ⟨header, payload, crc32 payload, h⟩) groups

theorem exists_encodeFrame (header : UInt8) {payload : Bytes} (h : payload.length ≤ serialMtu) :
    ∃ groups, FrameGroups crc32 header payload groups ∧
      encodeFrame storage crc32 header payload = .ok (lay groups ++ [0]) := by
  have hpre := SerialEnvelope.length_encode_le ⟨header, payload, crc32 payload, h⟩
  obtain ⟨groups, hcut, hlay, hencode⟩ := cobsEncode_lays storage hpre
  refine ⟨groups, ⟨hlay, h, hcut⟩, ?_⟩
  rw [encodeFrame, encodeFrameStuffing, dif_pos h]
  simp only [if_neg (not_lt.mpr hpre), hencode]
  rw [if_neg (by simp only [serialMaxCobsBuf]; omega)]
  rfl

namespace FrameGroups

variable {crc32} {header : UInt8} {payload : Bytes} {groups : List Bytes}

theorem zero_not_mem (h : FrameGroups crc32 header payload groups) : 0 ∉ lay groups := by
  obtain ⟨-, hpayload, hcut⟩ := h
  exact zero_not_mem_lay hcut.group

theorem lands (h : FrameGroups crc32 header payload groups) :
    (landings (lay groups)).getD 0 false = true := by
  obtain ⟨-, hpayload, hcut⟩ := h
  exact landings_lay fun group hgroup => (hcut.group group hgroup).1

theorem decodeFrame_eq (h : FrameGroups crc32 header payload groups) {tail : Bytes}
    (htail : tail = [] ∨ tail = [0]) :
    decodeFrame storage crc32 (lay groups ++ tail) = .ok ⟨header, payload⟩ := by
  obtain ⟨hlay, hpayload, hcut⟩ := h
  have hpre := SerialEnvelope.length_encode_le ⟨header, payload, crc32 payload, hpayload⟩
  rw [decodeFrame, cobsDecode_joins storage hcut hpre htail hlay]
  simp only [if_neg (not_lt.mpr hpre), SerialEnvelope.decode_encode]
  simp

end FrameGroups

namespace SerialFrameReader

variable {storage} {crc32}

theorem pushes_append (r : SerialFrameReader) (front bytes : Bytes) :
    r.pushes storage crc32 (front ++ bytes) =
      (((r.pushes storage crc32 front).1.pushes storage crc32 bytes).1,
        (r.pushes storage crc32 front).2 ++
          ((r.pushes storage crc32 front).1.pushes storage crc32 bytes).2) := by
  induction front generalizing r with
  | nil => rfl
  | cons byte front ih => simp [pushes, ih]

theorem length_pushes (r : SerialFrameReader) (bytes : Bytes) :
    (r.pushes storage crc32 bytes).2.length = bytes.length := by
  induction bytes generalizing r with
  | nil => rfl
  | cons byte bytes ih => simp [pushes, ih]

theorem pushes_zero (r : SerialFrameReader) (front : Bytes) :
    (r.pushes storage crc32 (front ++ [0])).1 = new := by
  rw [pushes_append]
  simp [pushes, push, serialEop, new]

theorem pushes_body (r : SerialFrameReader) {body : Bytes} (hzero : 0 ∉ body)
    (hroom : r.buf.length + body.length ≤ serialMaxCobsBuf) :
    r.pushes storage crc32 body = (⟨r.buf ++ body⟩, List.replicate body.length (.ok none)) := by
  induction body generalizing r with
  | nil => simp [pushes]
  | cons byte body ih =>
    rw [List.mem_cons, not_or] at hzero
    obtain ⟨hbyte, hbody⟩ := hzero
    rw [List.length_cons] at hroom
    have hpush : r.push storage crc32 byte = (⟨r.buf ++ [byte]⟩, .ok none) := by
      rw [push, serialEop, if_neg (Ne.symm hbyte), if_neg (by omega)]
    have hrest := ih ⟨r.buf ++ [byte]⟩ hbody
      (by simp only [List.length_append, List.length_singleton]; omega)
    simp only [pushes, hpush, hrest]
    simp [List.replicate_succ]

end SerialFrameReader

/-- A frame is encoded, decodes to what it was made of, and is found by a reader behind a zero
byte. -/
theorem serial_frame_round_trip (header : UInt8) (payload : Bytes) (h : payload.length ≤ 1500) :
    ∃ body, encodeFrame storage crc32 header payload = .ok (body ++ [0]) ∧
      (body ++ [0]).length ≤ 1516 ∧ 0 ∉ body ∧
      decodeFrame storage crc32 (body ++ [0]) = .ok ⟨header, payload⟩ ∧
      decodeFrame storage crc32 body = .ok ⟨header, payload⟩ ∧
      ∀ (r : SerialFrameReader) (g : Bytes),
        (r.pushes storage crc32 (g ++ [0] ++ (body ++ [0]))).2.drop (g.length + 1) =
          List.replicate body.length (.ok none) ++ [.ok (some ⟨header, payload⟩)] := by
  obtain ⟨groups, hgroups, hencode⟩ := exists_encodeFrame storage crc32 header h
  have hlength := hgroups.1
  have hbare : decodeFrame storage crc32 (lay groups) = .ok ⟨header, payload⟩ := by
    simpa using hgroups.decodeFrame_eq storage (Or.inl rfl)
  refine ⟨lay groups, hencode, ?_, hgroups.zero_not_mem,
    hgroups.decodeFrame_eq storage (Or.inr rfl), hbare, fun r g => ?_⟩
  · rw [List.length_append, List.length_singleton]
    omega
  · have hbody := @SerialFrameReader.pushes_body storage crc32 .new _ hgroups.zero_not_mem
      (by simp only [SerialFrameReader.new, List.length_nil, serialMaxCobsBuf]; omega)
    rw [SerialFrameReader.pushes_append, List.drop_append_of_le_length, List.drop_of_length_le,
      SerialFrameReader.pushes_zero, SerialFrameReader.pushes_append, hbody]
    all_goals simp [SerialFrameReader.length_pushes, SerialFrameReader.pushes,
      SerialFrameReader.push, SerialFrameReader.new, serialEop, hbare, Except.map]

/-- A payload with zero bytes at both ends. -/
theorem serial_frame_round_trip_init : ∃ body : Bytes,
    encodeFrame .inline (fun _ => 0xB0004FD5) 1 [0, 7, 0] = .ok (body ++ [0]) ∧
      (body ++ [0]).length ≤ 1516 ∧ 0 ∉ body ∧
      decodeFrame .inline (fun _ => 0xB0004FD5) (body ++ [0]) = .ok ⟨1, [0, 7, 0]⟩ ∧
      decodeFrame .inline (fun _ => 0xB0004FD5) body = .ok ⟨1, [0, 7, 0]⟩ ∧
      ∀ (r : SerialFrameReader) (g : Bytes),
        (r.pushes .inline (fun _ => 0xB0004FD5) (g ++ [0] ++ (body ++ [0]))).2.drop (g.length + 1) =
          List.replicate body.length (.ok none) ++ [.ok (some ⟨1, [0, 7, 0]⟩)] :=
  serial_frame_round_trip .inline (fun _ => 0xB0004FD5) 1 [0, 7, 0] (by decide)

end Frames

end WatchingZenoh.SerialLink
