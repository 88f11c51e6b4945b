import Mathlib.Data.Nat.ModEq

/-! Sequence numbers on a ring of `2 ^ k` values, held in a `u64`; the ring is given by its mask. Only
the bits under the mask are compared, so any representative of a number will do. -/

namespace WatchingZenoh.Sn

/-- Is `right` one step after `left`? Any representative of the residue will do. -/
def consecutive (mask left right : UInt64) : Bool := (right - left) &&& mask == 1

def increment (mask sn : UInt64) : UInt64 := (sn + 1) &&& mask

/-- The mask of a ring of `2 ^ k` values, at least two of them. -/
structure RingMask (mask : UInt64) (k : ℕ) : Prop where
  bits : mask.toNat = 2 ^ k - 1
  wide : 1 ≤ k

theorem RingMask.le_word {mask : UInt64} {k : ℕ} (h : RingMask mask k) : k ≤ 64 := by
  have hlt : 2 ^ k - 1 < 2 ^ 64 := h.bits ▸ mask.toNat_lt
  have hpos : 0 < 2 ^ k := Nat.two_pow_pos k
  by_contra hk
  have hle : 2 ^ 65 ≤ 2 ^ k := Nat.pow_le_pow_right (by decide) (by omega)
  omega

theorem toNat_and_mask {mask : UInt64} {k : ℕ} (h : RingMask mask k) (a : UInt64) :
    (a &&& mask).toNat = a.toNat % 2 ^ k := by
  rw [UInt64.toNat_and, h.bits, Nat.and_two_pow_sub_one_eq_mod]

theorem toNat_increment {mask : UInt64} {k : ℕ} (h : RingMask mask k) (sn : UInt64) :
    (increment mask sn).toNat = (sn.toNat + 1) % 2 ^ k := by
  have hdvd : 2 ^ k ∣ 2 ^ 64 := pow_dvd_pow 2 h.le_word
  rw [increment, toNat_and_mask h, UInt64.toNat_add, UInt64.toNat_one, Nat.mod_mod_of_dvd _ hdvd]

theorem consecutive_increment {mask : UInt64} {k : ℕ} (h : RingMask mask k) (sn : UInt64) :
    consecutive mask sn (increment mask sn) = true := by
  have hdvd : 2 ^ k ∣ 2 ^ 64 := pow_dvd_pow 2 h.le_word
  have hone : 1 < 2 ^ k := Nat.one_lt_two_pow (by have := h.wide; omega)
  have hsn : sn.toNat < 2 ^ 64 := sn.toNat_lt
  have hstep : ((increment mask sn - sn) &&& mask).toNat = (1 : UInt64).toNat := by
    rw [toNat_and_mask h, UInt64.toNat_sub, toNat_increment h, Nat.mod_mod_of_dvd _ hdvd,
      Nat.add_mod_mod, UInt64.toNat_one, show 2 ^ 64 - sn.toNat + (sn.toNat + 1) = 1 + 2 ^ 64 by omega,
      ← Nat.add_mod_mod, Nat.mod_eq_zero_of_dvd hdvd, Nat.add_zero, Nat.mod_eq_of_lt hone]
  rw [consecutive, beq_iff_eq]
  exact UInt64.toNat_inj.mp hstep

end WatchingZenoh.Sn
