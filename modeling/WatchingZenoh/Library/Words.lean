import Mathlib

/-! A 64-bit value as two 32-bit words, and differences of 32-bit words read as signed numbers: a
difference of two counters taken modulo `2^32` is the difference itself while it is small. -/

namespace WatchingZenoh.Words

def low (v : ℕ) : UInt32 := .ofNat v

def high (v : ℕ) : UInt32 := .ofNat (v >>> 32)

def joined (high low : UInt32) : ℕ := (high.toNat <<< 32) ||| low.toNat

theorem toNat_low (v : ℕ) : (low v).toNat = v % 2 ^ 32 := by
  simp [low]

theorem toNat_high {v : ℕ} (h : v < 2 ^ 64) : (high v).toNat = v / 2 ^ 32 := by
  rw [high, Nat.shiftRight_eq_div_pow, UInt32.toNat_ofNat']
  exact Nat.mod_eq_of_lt (by omega)

theorem joined_eq (h l : UInt32) : joined h l = h.toNat * 2 ^ 32 + l.toNat := by
  rw [joined, ← Nat.shiftLeft_add_eq_or_of_lt l.toNat_lt, Nat.shiftLeft_eq]

theorem joined_high_low {v : ℕ} (h : v < 2 ^ 64) : joined (high v) (low v) = v := by
  rw [joined_eq, toNat_high h, toNat_low]
  omega

theorem joined_inj {h l h' l' : UInt32} (heq : joined h l = joined h' l') : h = h' ∧ l = l' := by
  rw [joined_eq, joined_eq] at heq
  have := l.toNat_lt
  have := l'.toNat_lt
  exact ⟨UInt32.toNat_inj.mp (by omega), UInt32.toNat_inj.mp (by omega)⟩

theorem high_mono {v w : ℕ} (hvw : v ≤ w) (hw : w < 2 ^ 64) :
    (high v).toNat ≤ (high w).toNat := by
  rw [toNat_high (by omega), toNat_high hw]
  omega

theorem ofNat_joined (v : UInt64) : UInt64.ofNat (joined (high v.toNat) (low v.toNat)) = v := by
  rw [joined_high_low v.toNat_lt, UInt64.ofNat_toNat]

/-- A word read as an `i32`. -/
def signed (w : UInt32) : ℤ := w.toInt32.toInt

theorem signed_eq (w : UInt32) : signed w = (w.toNat : ℤ).bmod (2 ^ 32) := by
  rw [signed, Int32.toInt, BitVec.toInt_eq_toNat_bmod]
  rfl

theorem signed_low_sub {n c : ℕ} (h₁ : c ≤ n + 2 ^ 31) (h₂ : n < c + 2 ^ 31) :
    signed (low n - low c) = (n : ℤ) - c := by
  rw [signed_eq, UInt32.toNat_sub, toNat_low, toNat_low, Int.bmod_def]
  omega

end WatchingZenoh.Words
