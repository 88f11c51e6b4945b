import Mathlib.Data.Nat.Digits.Lemmas
import WatchingZenoh.Library.LittleEndian
import WatchingZenoh.Library.Utf8
import WatchingZenoh.Timestamp

/-! Ids as text: the lowercase hexadecimal of the number whose little-endian bytes the id is, without a
leading zero. An id of at most sixteen bytes that does not end in a zero is read back from its text. -/

namespace WatchingZenoh.ZidHex

open Timestamp LittleEndian

/-- `b'0' + d` or `b'a' + (d - 10)`. -/
def hexDigit (d : ℕ) : UInt8 := if d < 10 then .ofNat (0x30 + d) else .ofNat (0x57 + d)

def hexValue (b : UInt8) : Option ℕ :=
  if 0x30 ≤ b ∧ b ≤ 0x39 then some (b.toNat - 0x30)
  else if 0x61 ≤ b ∧ b ≤ 0x66 then some (b.toNat - 0x57)
  else if 0x41 ≤ b ∧ b ≤ 0x46 then some (b.toNat - 0x37)
  else none

/-- `format!("{:02x}", id)`. -/
def formatHex02 (id : ℕ) : Bytes :=
  let digits := (Nat.digits 16 id).reverse.map hexDigit
  List.replicate (2 - digits.length) 0x30 ++ digits

def zidToZenohHex (zid : Bytes) : Bytes :=
  let s := formatHex02 (ofLe (zidToLeArray zid))
  if s.head? = some 0x30 then s.tail else s

/-- `u128::from_str_radix(hex, 16)`: an optional `+` and at least one digit. -/
def u128FromStrRadix16 (hex : Bytes) : Option ℕ :=
  let digits := if hex.head? = some 0x2B then hex.tail else hex
  if digits = [] then none
  else do
    let values ← digits.mapM hexValue
    let id := Nat.ofDigits 16 values.reverse
    if id < 2 ^ 128 then some id else none

def zidFromKeyText (hex : Bytes) : Option Bytes :=
  if hex = [] ∨ hex.head? = some 0x30 ∨ hex.any (fun b => 0x41 ≤ b && b ≤ 0x5A) then none
  else (u128FromStrRadix16 hex).map (toLe 16)

def canonicalZid (zid : Bytes) : Bytes := trimZeros zid

def zenohHexToZid (hex : Bytes) : Option Bytes := (zidFromKeyText hex).map canonicalZid

theorem hexValue_hexDigit : ∀ d < 16, hexValue (hexDigit d) = some d := by decide

theorem hexDigit_plain : ∀ d < 16, hexDigit d ≠ 0x2B ∧
    ¬ (0x41 ≤ hexDigit d ∧ hexDigit d ≤ 0x5A) := by decide

theorem encoded_hexDigit : ∀ d < 16, [hexDigit d] =
    [Char.ofNat (hexDigit d).toNat].flatMap String.utf8EncodeChar := by decide

theorem hexDigit_eq_zero : ∀ d < 16, hexDigit d = 0x30 → d = 0 := by decide

def hexText (id : ℕ) : Bytes := (Nat.digits 16 id).reverse.map hexDigit

theorem exists_digit_of_mem_hexText {id : ℕ} {b : UInt8} (h : b ∈ hexText id) :
    ∃ d < 16, b = hexDigit d := by
  obtain ⟨d, hd, rfl⟩ := List.mem_map.mp h
  exact ⟨d, Nat.digits_lt_base (by decide) (List.mem_reverse.mp hd), rfl⟩

theorem encoded_hexText (id : ℕ) : Utf8.Encoded (hexText id) := by
  have hparts : hexText id = ((hexText id).map fun b => [b]).flatten := by
    rw [← List.flatMap_def, List.flatMap_singleton']
  rw [hparts]
  refine Utf8.encoded_flatten fun part hpart => ?_
  obtain ⟨b, hb, rfl⟩ := List.mem_map.mp hpart
  obtain ⟨d, hd, rfl⟩ := exists_digit_of_mem_hexText hb
  exact ⟨_, encoded_hexDigit d hd⟩

theorem head_hexText {id : ℕ} (hid : id ≠ 0) : (hexText id).head? ≠ some 0x30 := by
  intro h
  have hne : Nat.digits 16 id ≠ [] := Nat.digits_ne_nil_iff_ne_zero.mpr hid
  rw [hexText, List.head?_map, List.head?_reverse, List.getLast?_eq_getLast_of_ne_nil hne,
    Option.map_some, Option.some.injEq] at h
  have hlt := Nat.digits_lt_base (b := 16) (by decide) (List.getLast_mem hne)
  exact Nat.getLast_digit_ne_zero 16 hid (hexDigit_eq_zero _ hlt h)

/-- Of a number that is not zero the text is its digits: a single one loses the zero it was padded
with. -/
theorem zidToZenohHex_eq {zid : Bytes} (h : ofLe (zidToLeArray zid) ≠ 0) :
    zidToZenohHex zid = hexText (ofLe (zidToLeArray zid)) := by
  set id := ofLe (zidToLeArray zid) with hid
  have hhead := head_hexText h
  have hpos : 0 < (hexText id).length := by
    simp only [hexText, List.length_map, List.length_reverse]
    exact List.length_pos_iff.mpr (Nat.digits_ne_nil_iff_ne_zero.mpr h)
  have hformat : formatHex02 id = List.replicate (2 - (hexText id).length) 0x30 ++ hexText id := rfl
  rw [zidToZenohHex, ← hid, hformat]
  by_cases hone : (hexText id).length = 1
  · simp [hone]
  · have hpad : 2 - (hexText id).length = 0 := by omega
    simp [hpad, hhead]

theorem mapM_hexValue_hexText (id : ℕ) :
    (hexText id).mapM hexValue = some (Nat.digits 16 id).reverse := by
  have hlt : ∀ d ∈ (Nat.digits 16 id).reverse, d < 16 := fun d hd =>
    Nat.digits_lt_base (by decide) (List.mem_reverse.mp hd)
  rw [hexText]
  generalize (Nat.digits 16 id).reverse = digits at hlt
  induction digits with
  | nil => rfl
  | cons d digits ih =>
    rw [List.map_cons, List.mapM_cons, hexValue_hexDigit d (hlt d (by simp)),
      ih fun e he => hlt e (by simp [he])]
    rfl

theorem zidFromKeyText_hexText {id : ℕ} (hid : id ≠ 0) (hlt : id < 2 ^ 128) :
    zidFromKeyText (hexText id) = some (toLe 16 id) := by
  have hne : hexText id ≠ [] := by
    simpa [hexText] using Nat.digits_ne_nil_iff_ne_zero.mpr hid
  have hupper : (hexText id).any (fun b => 0x41 ≤ b && b ≤ 0x5A) = false := by
    rw [List.any_eq_false]
    intro b hb
    obtain ⟨d, hd, rfl⟩ := exists_digit_of_mem_hexText hb
    simpa using (hexDigit_plain d hd).2
  have hplus : (hexText id).head? ≠ some 0x2B := by
    intro h
    obtain ⟨d, hd, heq⟩ := exists_digit_of_mem_hexText (List.mem_of_mem_head? h)
    exact (hexDigit_plain d hd).1 heq.symm
  rw [zidFromKeyText, if_neg (by simp [hne, head_hexText hid, hupper]), u128FromStrRadix16,
    if_neg hplus, if_neg hne, mapM_hexValue_hexText]
  simpa [Nat.ofDigits_digits] using hlt

theorem toLe_ofLe_zidToLeArray (zid : Bytes) :
    toLe 16 (ofLe (zidToLeArray zid)) = zidToLeArray zid := by
  rw [toLe_ofLe (by rw [length_zidToLeArray]), length_zidToLeArray]
  simp

theorem canonicalZid_zidToLeArray {zid : Bytes} (hlen : zid.length ≤ 16) :
    canonicalZid (zidToLeArray zid) = canonicalZid zid := by
  rw [zidToLeArray, List.take_of_length_le hlen]
  exact trimZeros_append_replicate zid _

def CanonicalZid (zid : Bytes) : Prop :=
  1 ≤ zid.length ∧ zid.length ≤ 16 ∧ zid.getLast? ≠ some 0

instance (zid : Bytes) : Decidable (CanonicalZid zid) :=
  inferInstanceAs (Decidable (1 ≤ zid.length ∧ zid.length ≤ 16 ∧ zid.getLast? ≠ some 0))

theorem CanonicalZid.canonicalZid_zidToLeArray {zid : Bytes} (h : CanonicalZid zid) :
    canonicalZid (zidToLeArray zid) = zid :=
  (ZidHex.canonicalZid_zidToLeArray h.2.1).trans (trimZeros_eq_self_iff.mpr h.2.2)

theorem CanonicalZid.ofLe_ne_zero {zid : Bytes} (h : CanonicalZid zid) :
    ofLe (zidToLeArray zid) ≠ 0 := by
  intro hzero
  have hzeros := toLe_ofLe_zidToLeArray zid
  rw [hzero] at hzeros
  have hcanonical := h.canonicalZid_zidToLeArray
  rw [← hzeros] at hcanonical
  exact List.length_pos_iff.mp h.1 (hcanonical.symm.trans (by decide))

theorem encoded_zidToZenohHex {zid : Bytes} (h : CanonicalZid zid) :
    Utf8.Encoded (zidToZenohHex zid) := by
  rw [zidToZenohHex_eq h.ofLe_ne_zero]
  exact encoded_hexText _

theorem zenohHexToZid_zidToZenohHex {zid : Bytes} (h : CanonicalZid zid) :
    zenohHexToZid (zidToZenohHex zid) = some zid := by
  have hlt : ofLe (zidToLeArray zid) < 2 ^ 128 := by
    have hbytes := ofLe_lt (zidToLeArray zid)
    rw [length_zidToLeArray] at hbytes
    exact hbytes.trans_eq (by norm_num)
  rw [zidToZenohHex_eq h.ofLe_ne_zero, zenohHexToZid, zidFromKeyText_hexText h.ofLe_ne_zero hlt,
    Option.map_some, toLe_ofLe_zidToLeArray, h.canonicalZid_zidToLeArray]

end WatchingZenoh.ZidHex
