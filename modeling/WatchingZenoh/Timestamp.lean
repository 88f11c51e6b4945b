import Mathlib.Data.List.Lex
import Mathlib.Data.Prod.Lex
import WatchingZenoh.Text

/-! Timestamps, and the one order the storage plane compares them by: the time word first, then the
id as a full array of sixteen bytes. -/

namespace WatchingZenoh.Timestamp

structure TimestampHint where
  time : UInt64
  zid : Bytes
  deriving DecidableEq, Repr

/-- A length-trimmed id, padded with zeros; a longer one is cut. -/
def zidToLeArray (zid : Bytes) : Bytes := zid.take 16 ++ List.replicate (16 - zid.length) 0

def timestampOrderKey (ts : TimestampHint) : ℕ ×ₗ List ℕ :=
  toLex (ts.time.toNat, (zidToLeArray ts.zid).map UInt8.toNat)

def timestampStrictlyNewer (a b : TimestampHint) : Bool :=
  decide (timestampOrderKey b < timestampOrderKey a)

@[simp] theorem timestampStrictlyNewer_eq_true {a b : TimestampHint} :
    timestampStrictlyNewer a b = true ↔ timestampOrderKey b < timestampOrderKey a :=
  decide_eq_true_iff

@[simp] theorem timestampStrictlyNewer_eq_false {a b : TimestampHint} :
    timestampStrictlyNewer a b = false ↔ timestampOrderKey a ≤ timestampOrderKey b := by
  rw [timestampStrictlyNewer, decide_eq_false_iff_not, not_lt]

theorem length_zidToLeArray (zid : Bytes) : (zidToLeArray zid).length = 16 := by
  simp only [zidToLeArray, List.length_append, List.length_take, List.length_replicate]
  omega

end WatchingZenoh.Timestamp
