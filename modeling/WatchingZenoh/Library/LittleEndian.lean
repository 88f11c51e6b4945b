import Mathlib.Data.List.DropRight
import Mathlib.Data.Nat.Basic
import Mathlib.Data.UInt

/-! Numbers as their bytes, the lowest one first, and byte strings without the zeros at their end. A
number that fits the width is read back as it was written. -/

namespace WatchingZenoh.LittleEndian

/-- The lowest `width` bytes of a number. -/
def toLe : ℕ → ℕ → List UInt8
  | 0, _ => []
  | width + 1, n => .ofNat n :: toLe width (n / 256)

def ofLe : List UInt8 → ℕ
  | [] => 0
  | b :: bytes => b.toNat + 256 * ofLe bytes

@[simp] theorem length_toLe (width n : ℕ) : (toLe width n).length = width := by
  induction width generalizing n with
  | zero => rfl
  | succ width ih => simp [toLe, ih]

theorem ofLe_toLe (width n : ℕ) : ofLe (toLe width n) = n % 256 ^ width := by
  induction width generalizing n with
  | zero => simp [toLe, ofLe, Nat.mod_one]
  | succ width ih =>
    rw [toLe, ofLe, ih, pow_succ', Nat.mod_mul]
    simp

theorem ofLe_lt (bytes : List UInt8) : ofLe bytes < 256 ^ bytes.length := by
  induction bytes with
  | nil => simp [ofLe]
  | cons b bytes ih =>
    have hb := b.toNat_lt
    rw [ofLe, List.length_cons, pow_succ']
    omega

theorem toLe_take (m n d : ℕ) : (toLe (m + n) d).take m = toLe m d := by
  induction m generalizing d with
  | zero => simp [toLe]
  | succ m ih =>
    rw [show m + 1 + n = m + n + 1 by omega, toLe, toLe, List.take_succ_cons, ih]

theorem ofLe_append (a b : List UInt8) : ofLe (a ++ b) = ofLe a + 256 ^ a.length * ofLe b := by
  induction a with
  | nil => simp [ofLe]
  | cons x a ih =>
    rw [List.cons_append, ofLe, ofLe, ih, List.length_cons, pow_succ']
    rw [Nat.mul_add, Nat.mul_assoc, Nat.add_assoc]

theorem toLe_ofLe {bytes : List UInt8} {width : ℕ} (h : bytes.length ≤ width) :
    toLe width (ofLe bytes) = bytes ++ List.replicate (width - bytes.length) 0 := by
  induction width generalizing bytes with
  | zero =>
    obtain rfl : bytes = [] := List.eq_nil_of_length_eq_zero (by omega)
    rfl
  | succ width ih =>
    rcases bytes with _ | ⟨b, bytes⟩
    · have hzero := @ih [] (Nat.zero_le _)
      simp only [ofLe, List.length_nil, Nat.sub_zero, List.nil_append] at hzero ⊢
      rw [toLe, Nat.zero_div, hzero, List.replicate_succ]
      rfl
    · have hb := b.toNat_lt
      have hdiv : (b.toNat + 256 * ofLe bytes) / 256 = ofLe bytes := by omega
      have hmod : UInt8.ofNat (b.toNat + 256 * ofLe bytes) = b := by
        apply UInt8.toNat_inj.mp
        rw [UInt8.toNat_ofNat']
        omega
      rw [ofLe, toLe, hdiv, hmod, ih (by simpa using h)]
      simp

def trimZeros (bytes : List UInt8) : List UInt8 := bytes.rdropWhile (· == 0)

theorem trimZeros_append_replicate (bytes : List UInt8) (n : ℕ) :
    trimZeros (bytes ++ List.replicate n 0) = trimZeros bytes := by
  induction n with
  | zero => simp
  | succ n ih =>
    rw [List.replicate_succ', ← List.append_assoc, trimZeros,
      List.rdropWhile_concat_pos _ _ _ (by rfl)]
    exact ih

theorem trimZeros_eq_self_iff {bytes : List UInt8} :
    trimZeros bytes = bytes ↔ bytes.getLast? ≠ some 0 := by
  rw [trimZeros, List.rdropWhile_eq_self_iff]
  rcases List.eq_nil_or_concat' bytes with rfl | ⟨front, b, rfl⟩ <;> simp

theorem trimZeros_trimZeros (bytes : List UInt8) : trimZeros (trimZeros bytes) = trimZeros bytes :=
  List.rdropWhile_idempotent _ bytes

theorem length_trimZeros_le (bytes : List UInt8) : (trimZeros bytes).length ≤ bytes.length :=
  (List.rdropWhile_prefix _ bytes).length_le

end WatchingZenoh.LittleEndian
