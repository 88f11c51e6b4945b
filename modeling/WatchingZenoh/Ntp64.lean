import Mathlib

/-! The NTP64 timestamp word: whole seconds in the high half, a fraction of `1/2^32` second units in
the low one. A span is rounded down to a word and a word is read back rounded up, so that a whole
number of nanoseconds comes back as it was. -/

namespace WatchingZenoh.TimeRange

def nanoPerSec : ℕ := 1000000000

/-- A span of whole seconds and the nanoseconds over them. -/
structure Duration where
  secs : UInt64
  subsecNanos : UInt32
  below : subsecNanos.toNat < nanoPerSec
  deriving DecidableEq

namespace Duration

/-- The carry of a second out of the nanoseconds; `none` is the overflow that panics. -/
def new (secs : UInt64) (nanos : UInt32) : Option Duration :=
  if h : nanos.toNat < nanoPerSec then some ⟨secs, nanos, h⟩
  else if secs.toNat + nanos.toNat / nanoPerSec < 2 ^ 64 then
    some ⟨secs + UInt64.ofNat (nanos.toNat / nanoPerSec), UInt32.ofNat (nanos.toNat % nanoPerSec), by
      have hlt : nanos.toNat % nanoPerSec < nanoPerSec := Nat.mod_lt _ (by decide)
      rw [UInt32.toNat_ofNat']
      exact lt_of_le_of_lt (Nat.mod_le _ _) hlt⟩
  else none

def asMillis (d : Duration) : ℕ := d.secs.toNat * 1000 + d.subsecNanos.toNat / 1000000

def asNanos (d : Duration) : ℕ := d.secs.toNat * nanoPerSec + d.subsecNanos.toNat

/-- Seconds first, nanoseconds then. -/
instance instLE : LE Duration where
  le a b := a.secs < b.secs ∨ a.secs = b.secs ∧ a.subsecNanos ≤ b.subsecNanos

theorem le_iff (a b : Duration) : a ≤ b ↔ a.asNanos ≤ b.asNanos := by
  have ha := a.below
  have hb := b.below
  have hle : a ≤ b ↔ a.secs.toNat < b.secs.toNat ∨
      a.secs.toNat = b.secs.toNat ∧ a.subsecNanos.toNat ≤ b.subsecNanos.toNat := by
    rw [UInt64.toNat_inj]
    rfl
  rw [hle]
  simp only [asNanos, nanoPerSec] at *
  omega

theorem eq_of_asNanos {a b : Duration} (h : a.asNanos = b.asNanos) : a = b := by
  have ha := a.below
  have hb := b.below
  simp only [asNanos, nanoPerSec] at h ha hb
  have hsecs : a.secs = b.secs := UInt64.toNat_inj.mp (by omega)
  have hnanos : a.subsecNanos = b.subsecNanos := UInt32.toNat_inj.mp (by omega)
  cases a
  cases b
  simp only at hsecs hnanos
  subst hsecs
  subst hnanos
  rfl

theorem asMillis_eq (d : Duration) : d.asMillis = d.asNanos / 1000000 := by
  simp only [asMillis, asNanos, nanoPerSec]
  omega

theorem exists_new {secs : UInt64} (nanos : UInt32) (h : secs.toNat < 2 ^ 32) :
    ∃ d, new secs nanos = some d ∧ d.asNanos = secs.toNat * nanoPerSec + nanos.toNat := by
  have hnanos := nanos.toNat_lt
  unfold new
  split_ifs with hbelow hfits
  · exact ⟨_, rfl, rfl⟩
  · refine ⟨_, rfl, ?_⟩
    simp only [asNanos, nanoPerSec] at *
    rw [UInt64.toNat_add, UInt64.toNat_ofNat', UInt32.toNat_ofNat']
    omega
  · simp only [nanoPerSec] at hfits
    omega

end Duration

structure SystemTime where
  sinceEpoch : Duration
  deriving DecidableEq

instance instSystemTimeLE : LE SystemTime where
  le a b := a.sinceEpoch ≤ b.sinceEpoch

/-- The epoch plus a span; `none` is past the last instant that can be told, which panics. -/
def unixEpochPlus (d : Duration) : Option SystemTime :=
  if d.secs.toNat < 2 ^ 63 then some ⟨d⟩ else none

structure Ntp64 where
  word : UInt64
  deriving DecidableEq, Repr

namespace Ntp64

def fracPerSec : UInt64 := (1 : UInt64) <<< 32

def fracMask : UInt64 := fracPerSec - 1

def fromWord (word : UInt64) : Ntp64 := ⟨word⟩

def asWord (t : Ntp64) : UInt64 := t.word

/-- The shift of the seconds wraps past the high half. -/
def fromUnix (secs : UInt64) (subsecNanos : UInt32) : Ntp64 :=
  ⟨(secs <<< 32) ||| (subsecNanos.toUInt64 * fracPerSec) / 1000000000⟩

/-- A span too long for the high half is the largest word. -/
def fromDuration (span : Duration) : Ntp64 :=
  if UInt64.ofNat (2 ^ 64 - 1) >>> 32 < span.secs then ⟨UInt64.ofNat (2 ^ 64 - 1)⟩
  else fromUnix span.secs span.subsecNanos

def wholeSecs (t : Ntp64) : UInt64 := t.word >>> 32

def frac (t : Ntp64) : UInt64 := t.word &&& fracMask

/-- The rounding up of `a / b`. -/
def divCeil (a b : UInt64) : UInt64 := if a % b = 0 then a / b else a / b + 1

def toMillis (t : Ntp64) : ℕ :=
  t.wholeSecs.toNat * 1000 + (divCeil (t.frac * 1000000000) fracPerSec).toNat / 1000000

end Ntp64

def ntp64ToSystemTime (ntp64 : UInt64) : Option SystemTime :=
  let secs := ntp64 >>> 32
  let frac := ntp64 &&& (Ntp64.fracPerSec - 1)
  let nanos := Ntp64.divCeil (frac * 1000000000) Ntp64.fracPerSec
  (Duration.new secs nanos.toUInt32).bind unixEpochPlus

namespace Ntp64

theorem toNat_wholeSecs (t : Ntp64) : t.wholeSecs.toNat = t.word.toNat / 2 ^ 32 := by
  rw [wholeSecs, UInt64.toNat_shiftRight, Nat.shiftRight_eq_div_pow]
  rfl

theorem toNat_frac (t : Ntp64) : t.frac.toNat = t.word.toNat % 2 ^ 32 := by
  have hmask : fracMask.toNat = 2 ^ 32 - 1 := by decide
  rw [frac, UInt64.toNat_and, hmask, Nat.and_two_pow_sub_one_eq_mod]

def nanosOf (t : Ntp64) : UInt64 := divCeil (t.frac * 1000000000) fracPerSec

theorem toNat_nanosOf (t : Ntp64) :
    t.nanosOf.toNat = (t.word.toNat % 2 ^ 32 * nanoPerSec + (2 ^ 32 - 1)) / 2 ^ 32 := by
  have hfrac := t.toNat_frac
  have hlt : t.word.toNat % 2 ^ 32 < 2 ^ 32 := Nat.mod_lt _ (by decide)
  have hper : fracPerSec.toNat = 2 ^ 32 := by decide
  have hprod : (t.frac * 1000000000).toNat = t.word.toNat % 2 ^ 32 * nanoPerSec := by
    rw [UInt64.toNat_mul, hfrac, nanoPerSec, Nat.mod_eq_of_lt]
    · rfl
    · rw [show (1000000000 : UInt64).toNat = 1000000000 from rfl]
      omega
  have hzero : (t.frac * 1000000000) % fracPerSec = 0 ↔
      t.word.toNat % 2 ^ 32 * nanoPerSec % 2 ^ 32 = 0 := by
    rw [← UInt64.toNat_inj, UInt64.toNat_mod, hprod, hper]
    rfl
  have hbound : t.word.toNat % 2 ^ 32 * nanoPerSec < 2 ^ 63 := by
    rw [nanoPerSec]
    omega
  rw [nanosOf, divCeil]
  generalize t.word.toNat % 2 ^ 32 * nanoPerSec = x at hprod hzero hbound
  split_ifs with h
  · have hwhole := hzero.mp h
    rw [UInt64.toNat_div, hprod, hper]
    clear h hzero hprod hfrac
    omega
  · have hpart := mt hzero.mpr h
    rw [UInt64.toNat_add, UInt64.toNat_div, hprod, hper, UInt64.toNat_one]
    clear h hzero hprod hfrac
    omega

/-- A word in nanoseconds, the fraction rounded up. -/
def nanosSince (t : Ntp64) : ℕ := t.word.toNat / 2 ^ 32 * nanoPerSec + t.nanosOf.toNat

theorem exists_systemTime (word : UInt64) :
    ∃ s, ntp64ToSystemTime word = some s ∧ s.sinceEpoch.asNanos = (fromWord word).nanosSince := by
  have hsecs := (fromWord word).toNat_wholeSecs
  have hword := word.toNat_lt
  have hnanos := (fromWord word).toNat_nanosOf
  have hfits : (word >>> 32).toNat < 2 ^ 32 := by
    rw [show (word >>> 32).toNat = word.toNat / 2 ^ 32 from hsecs]
    omega
  obtain ⟨d, hnew, hd⟩ := Duration.exists_new (fromWord word).nanosOf.toUInt32 hfits
  have hsmall : (fromWord word).nanosOf.toUInt32.toNat = (fromWord word).nanosOf.toNat := by
    rw [UInt64.toNat_toUInt32, Nat.mod_eq_of_lt]
    rw [hnanos, nanoPerSec]
    omega
  have hrange : d.secs.toNat < 2 ^ 63 := by
    have := d.below
    rw [hsmall, hnanos] at hd
    simp only [Duration.asNanos, nanoPerSec] at hd
    omega
  refine ⟨⟨d⟩, ?_, ?_⟩
  · have hread : ntp64ToSystemTime word =
        (Duration.new (word >>> 32) (fromWord word).nanosOf.toUInt32).bind unixEpochPlus := rfl
    rw [hread, hnew, Option.bind_some, unixEpochPlus, if_pos hrange]
  · rw [hd, hsmall, show (word >>> 32).toNat = word.toNat / 2 ^ 32 from hsecs]
    rfl

theorem toMillis_eq (t : Ntp64) : t.toMillis = t.nanosSince / 1000000 := by
  have hmillis : t.toMillis = t.wholeSecs.toNat * 1000 + t.nanosOf.toNat / 1000000 := rfl
  rw [hmillis, toNat_wholeSecs, nanosSince, nanoPerSec]
  omega

theorem nanosSince_mono {a b : UInt64} (h : a ≤ b) :
    (fromWord a).nanosSince ≤ (fromWord b).nanosSince := by
  have hle : a.toNat ≤ b.toNat := UInt64.le_iff_toNat_le.mp h
  rw [nanosSince, nanosSince, toNat_nanosOf, toNat_nanosOf]
  simp only [fromWord, nanoPerSec]
  omega

theorem nanosSince_fromDuration (d : Duration) (h : d.secs.toNat < 2 ^ 32) :
    (fromDuration d).nanosSince = d.asNanos := by
  have hbelow := d.below
  have hper : fracPerSec.toNat = 2 ^ 32 := by decide
  have hshort : ¬ UInt64.ofNat (2 ^ 64 - 1) >>> 32 < d.secs := by
    rw [UInt64.lt_iff_toNat_lt, show (UInt64.ofNat (2 ^ 64 - 1) >>> 32).toNat = 2 ^ 32 - 1 from by
      decide]
    omega
  have hfrac : ((d.subsecNanos.toUInt64 * fracPerSec) / 1000000000).toNat =
      d.subsecNanos.toNat * 2 ^ 32 / nanoPerSec := by
    rw [UInt64.toNat_div, UInt64.toNat_mul, hper, UInt32.toNat_toUInt64,
      Nat.mod_eq_of_lt (by rw [nanoPerSec] at hbelow; omega)]
    rfl
  have hword : (fromDuration d).word.toNat =
      d.secs.toNat * 2 ^ 32 + d.subsecNanos.toNat * 2 ^ 32 / nanoPerSec := by
    rw [fromDuration, if_neg hshort, fromUnix, UInt64.toNat_or, UInt64.toNat_shiftLeft, hfrac,
      show (32 : UInt64).toNat % 64 = 32 from rfl, Nat.shiftLeft_eq, Nat.mod_eq_of_lt (by omega),
      ← Nat.shiftLeft_eq, ← Nat.shiftLeft_add_eq_or_of_lt]
    rw [nanoPerSec] at *
    omega
  rw [nanosSince, toNat_nanosOf, hword]
  simp only [Duration.asNanos, nanoPerSec] at *
  omega

end Ntp64

open Ntp64 in
/-- Conversion keeps every nanosecond of a span, and reading a word keeps the order of words; the two
readings of a word agree. -/
theorem ntp64_exact (d : Duration) (a b word : UInt64) :
    (d.secs.toNat < 2 ^ 32 →
      ntp64ToSystemTime (fromDuration d).asWord = unixEpochPlus d ∧
        ntp64ToSystemTime (fromDuration d).asWord = some ⟨d⟩ ∧
        (fromDuration d).toMillis = d.asMillis) ∧
    (a ≤ b → (fromWord a).toMillis ≤ (fromWord b).toMillis ∧
      ∃ s t, ntp64ToSystemTime a = some s ∧ ntp64ToSystemTime b = some t ∧ s ≤ t) ∧
    ∃ s, ntp64ToSystemTime word = some s ∧
      s.sinceEpoch.asMillis = (fromWord word).toMillis := by
  refine ⟨fun hd => ?_, fun hab => ?_, ?_⟩
  · have hsince := nanosSince_fromDuration d hd
    obtain ⟨s, hs, hnanos⟩ := exists_systemTime (fromDuration d).asWord
    have heq : s = ⟨d⟩ := by
      rw [← Duration.eq_of_asNanos (hnanos.trans hsince)]
    subst heq
    refine ⟨?_, hs, ?_⟩
    · rw [hs, unixEpochPlus, if_pos (by omega)]
    · rw [toMillis_eq, hsince, Duration.asMillis_eq]
  · obtain ⟨s, hs, hsn⟩ := exists_systemTime a
    obtain ⟨t, ht, htn⟩ := exists_systemTime b
    have hle := nanosSince_mono hab
    refine ⟨?_, s, t, hs, ht, ?_⟩
    · rw [toMillis_eq, toMillis_eq]
      exact Nat.div_le_div_right hle
    · have hspan : s.sinceEpoch ≤ t.sinceEpoch := by
        rw [Duration.le_iff, hsn, htn]
        exact hle
      exact hspan
  · obtain ⟨s, hs, hsn⟩ := exists_systemTime word
    exact ⟨s, hs, by rw [Duration.asMillis_eq, hsn, toMillis_eq]⟩

theorem ntp64_exact_span :
    let d : Duration := ⟨1700000000, 999999999, by decide⟩
    ntp64ToSystemTime (Ntp64.fromDuration d).asWord = some ⟨d⟩ ∧
      (Ntp64.fromDuration d).toMillis = d.asMillis ∧
      ∃ s t, ntp64ToSystemTime 5 = some s ∧ ntp64ToSystemTime (2 ^ 33) = some t ∧ s ≤ t := by
  intro d
  obtain ⟨hspan, hwords, -⟩ := ntp64_exact d 5 (2 ^ 33) 0
  obtain ⟨-, htime, hmillis⟩ := hspan (by decide)
  exact ⟨htime, hmillis, (hwords (by decide)).2⟩

end WatchingZenoh.TimeRange
