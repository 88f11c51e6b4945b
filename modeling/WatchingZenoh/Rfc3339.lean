import Mathlib
import WatchingZenoh.Library.Calendar
import WatchingZenoh.Ntp64

/-! The reading of an RFC3339-like timestamp. A text is its bytes; an index out of range, a subtraction
below zero and a word that does not fit are told apart from a refusal, so that none of them can be
mistaken for one. -/

namespace WatchingZenoh.TimeRange
open Calendar

abbrev Bytes := List UInt8

inductive Reading (α : Type)
  | panics
  | refused
  | value (a : α)
  deriving DecidableEq, Repr

namespace Reading

instance monadReading : Monad Reading where
  pure := .value
  bind x f :=
    match x with
    | .panics => .panics
    | .refused => .refused
    | .value a => f a

@[simp] theorem value_bind {α β : Type} (a : α) (f : α → Reading β) : (value a >>= f) = f a := rfl

@[simp] theorem refused_bind {α β : Type} (f : α → Reading β) : (refused >>= f) = refused := rfl

theorem bind_ne_panics {α β : Type} {x : Reading α} {f : α → Reading β} (hx : x ≠ .panics)
    (hf : ∀ a, x = .value a → f a ≠ .panics) : (x >>= f) ≠ .panics := by
  cases x with
  | panics => exact absurd rfl hx
  | refused =>
    intro h
    cases h
  | value a => exact hf a rfl

def orRefuse {α : Type} : Option α → Reading α
  | some a => .value a
  | none => .refused

def orPanic {α : Type} : Option α → Reading α
  | some a => .value a
  | none => .panics

/-- A `u64` that must not wrap. -/
def word (n : ℕ) : Reading ℕ := if n < 2 ^ 64 then .value n else .panics

def sub (a b : ℕ) : Reading ℕ := if b ≤ a then .value (a - b) else .panics

theorem word_of_lt {n : ℕ} (h : n < 2 ^ 64) : word n = .value n := if_pos h

theorem sub_of_le {a b : ℕ} (h : b ≤ a) : sub a b = .value (a - b) := if_pos h

end Reading

open Reading

def rfc3339MaxSeconds : ℕ := 253402300800 - 1

/-- `(b as char).to_digit(10)`. -/
def toDigit (b : UInt8) : Option ℕ :=
  if 0x30 ≤ b.toNat ∧ b.toNat ≤ 0x39 then some (b.toNat - 0x30) else none

def byteAt (b : Bytes) (i : ℕ) : Reading UInt8 := orPanic b[i]?

def two (b : Bytes) (i : ℕ) : Reading ℕ := do
  let hi ← orRefuse (toDigit (← byteAt b i))
  let lo ← orRefuse (toDigit (← byteAt b (i + 1)))
  pure (hi * 10 + lo)

def dash : UInt8 := 0x2D
def colon : UInt8 := 0x3A
def space : UInt8 := 0x20
def dot : UInt8 := 0x2E
def plus : UInt8 := 0x2B
def letterT : UInt8 := 0x54
def letterZ : UInt8 := 0x5A

/-- `+00:00`. -/
def zeroOffset : Bytes := [plus, 0x30, 0x30, colon, 0x30, 0x30]

def separators (b : Bytes) : Reading Unit := do
  let b4 ← byteAt b 4
  let b7 ← byteAt b 7
  let b10 ← byteAt b 10
  let b13 ← byteAt b 13
  let b16 ← byteAt b 16
  if b4 ≠ dash ∨ b7 ≠ dash ∨ (b10 ≠ letterT ∧ b10 ≠ space) ∨ b13 ≠ colon ∨ b16 ≠ colon then .refused
  else pure ()

/-- The days of a year before a month, and the days of the month. -/
def monthDays (leap : Bool) : ℕ → Option (ℕ × ℕ)
  | 1 => some (0, 31)
  | 2 => if leap then some (31, 29) else some (31, 28)
  | 3 => some (59, 31)
  | 4 => some (90, 30)
  | 5 => some (120, 31)
  | 6 => some (151, 30)
  | 7 => some (181, 31)
  | 8 => some (212, 31)
  | 9 => some (243, 30)
  | 10 => some (273, 31)
  | 11 => some (304, 30)
  | 12 => some (334, 31)
  | _ => none

/-- The leap years from 1970 on, before a year. -/
def leapYears (year : ℕ) : Reading ℕ := do
  let before ← sub year 1
  let fours ← sub before 1968
  let hundreds ← sub before 1900
  let fourHundreds ← sub before 1600
  let most ← sub (fours / 4) (hundreds / 100)
  word (most + fourHundreds / 400)

def daysOf (year month day : ℕ) : Reading ℕ := do
  let leap := decide (year % 4 = 0 ∧ (year % 100 ≠ 0 ∨ year % 400 = 0))
  let (ydays, mdays) ← orRefuse (monthDays leap month)
  if mdays < day ∨ day = 0 then .refused
  else
    let ydays ← word (ydays + (← sub day 1))
    let ydays ← word (if leap ∧ 2 < month then ydays + 1 else ydays)
    let leapYears ← leapYears year
    word ((← sub year 1970) * 365 + leapYears + ydays)

/-- The digits of a fraction, from the byte at `idx` of a text of `len` bytes on. -/
def fraction (len : ℕ) : ℕ → ℕ → ℕ → Bytes → Reading ℕ
  | _, nanos, _, [] => pure nanos
  | idx, nanos, mult, b :: rest =>
    if b = letterZ then do
      if idx = (← sub len 1) then pure nanos else .refused
    else if b = plus then do
      if idx = (← sub len 6) then pure nanos else .refused
    else do
      let digit ← orRefuse (toDigit b)
      let nanos ← word (nanos + mult * digit)
      fraction len (idx + 1) nanos (mult / 10) rest

/-- What follows the seconds: a fraction, a zone or nothing. -/
def nanosOf (b : Bytes) : Reading ℕ :=
  if b[19]? = some dot then fraction b.length 20 0 100000000 (b.drop 20)
  else if b.length ≠ 19 then
    if 25 < b.length then .refused
    else do
      let b19 ← byteAt b 19
      if b19 ≠ letterZ ∧ b.drop 19 ≠ zeroOffset then .refused else pure 0
  else pure 0

def parseRfc3339Weak (b : Bytes) : Reading SystemTime :=
  if b.length < 19 then .refused
  else do
    separators b
    let century ← two b 0
    let year := century * 100 + (← two b 2)
    let month ← two b 5
    let day ← two b 8
    let hour ← two b 11
    let minute ← two b 14
    let second ← two b 17
    if year < 1970 ∨ 23 < hour ∨ 59 < minute ∨ 60 < second then .refused
    else
      let second := if second = 60 then 59 else second
      let days ← daysOf year month day
      let time := second + minute * 60 + hour * 3600
      let nanos ← nanosOf b
      let totalSeconds ← word (time + days * 86400)
      if rfc3339MaxSeconds < totalSeconds then .refused
      else orPanic ((Duration.new (UInt64.ofNat totalSeconds) (UInt32.ofNat nanos)).bind unixEpochPlus)

/-! The text of an instant. -/

def digit (d : ℕ) : UInt8 := UInt8.ofNat (0x30 + d)

def pair (n : ℕ) : Bytes := [digit (n / 10), digit (n % 10)]

/-- What a text names: a date, a time of day, and perhaps a fraction and the zone. -/
structure Stamp where
  date : Date
  hour : ℕ
  minute : ℕ
  second : ℕ
  fraction : Option (List ℕ)
  zulu : Bool

namespace Stamp

/-- The numbers have as many digits as the form gives them. -/
structure Written (t : Stamp) : Prop where
  year : t.date.year < 10000
  month : t.date.month < 100
  day : t.date.day < 100
  hour : t.hour < 100
  minute : t.minute < 100
  second : t.second < 100
  digits : ∀ ds, t.fraction = some ds → ∀ d ∈ ds, d < 10

/-- `YYYY-MM-DDThh:mm:ss`, with a fraction and a `Z` where there are any. -/
def text (t : Stamp) : Bytes :=
  pair (t.date.year / 100) ++ pair (t.date.year % 100) ++ [dash] ++ pair t.date.month ++ [dash] ++
    pair t.date.day ++ [letterT] ++ pair t.hour ++ [colon] ++ pair t.minute ++ [colon] ++
    pair t.second ++ (t.fraction.elim [] fun ds => dot :: ds.map digit) ++
    if t.zulu then [letterZ] else []

/-- The date and the time of day exist; a leap second is let through. -/
structure Occurs (t : Stamp) : Prop where
  date : t.date.Valid
  hour : t.hour ≤ 23
  minute : t.minute ≤ 59
  second : t.second ≤ 60

/-- The first nine digits of the fraction, as nanoseconds. -/
def nanos (t : Stamp) : ℕ :=
  ∑ i ∈ Finset.range 9, (t.fraction.getD []).getD i 0 * 10 ^ (8 - i)

def time (t : Stamp) : ℕ := min t.second 59 + t.minute * 60 + t.hour * 3600

end Stamp

/-! The calendar arithmetic. -/

theorem monthDays_eq (year : ℕ) {month : ℕ} (hfirst : 1 ≤ month) (hlast : month ≤ 12) :
    ∃ ydays, monthDays (isLeap year) month = some (ydays, monthLength year month) ∧
      daysBeforeMonth year month = if isLeap year ∧ 2 < month then ydays + 1 else ydays := by
  cases hleap : isLeap year <;> interval_cases month <;>
    simp [monthDays, monthLength, hleap, daysBeforeMonth, Finset.sum_Ico_succ_top]

theorem monthDays_none (leap : Bool) {month : ℕ} (h : ¬ (1 ≤ month ∧ month ≤ 12)) :
    monthDays leap month = none := by
  unfold monthDays
  split <;> first | rfl | omega

theorem daysBeforeYear_eq {year : ℕ} (h : 1970 ≤ year) :
    daysBeforeYear 1970 year = (year - 1970) * 365 +
      ((year - 1 - 1968) / 4 - (year - 1 - 1900) / 100 + (year - 1 - 1600) / 400) := by
  induction year, h using Nat.le_induction with
  | base => simp [daysBeforeYear]
  | succ year h ih =>
    rw [daysBeforeYear_succ h, ih, yearLength, isLeap]
    simp only [decide_eq_true_eq]
    split_ifs with hleap
    · omega
    · omega

theorem leapYears_eq {year : ℕ} (h : 1970 ≤ year) (hmax : year < 10000) :
    leapYears year = .value ((year - 1 - 1968) / 4 - (year - 1 - 1900) / 100 +
      (year - 1 - 1600) / 400) := by
  rw [leapYears, sub_of_le (by omega), value_bind, sub_of_le (by omega), value_bind,
    sub_of_le (by omega), value_bind, sub_of_le (by omega), value_bind, sub_of_le (by omega),
    value_bind, word_of_lt (by omega)]

theorem number_lt {d : Date} (h : 1970 ≤ d.year) (hmax : d.year < 10000) (hvalid : d.Valid) :
    d.number 1970 < 2932897 := by
  have hlt := hvalid.number_lt_year h
  have hle : daysBeforeYear 1970 (d.year + 1) ≤ daysBeforeYear 1970 10000 := daysBeforeYear_le hmax
  have hend : daysBeforeYear 1970 10000 = 2932897 := daysBeforeYear_eq (by decide)
  omega

theorem daysOf_eq {d : Date} (h : 1970 ≤ d.year) (hmax : d.year < 10000) (hvalid : d.Valid) :
    daysOf d.year d.month d.day = .value (d.number 1970) := by
  obtain ⟨ydays, hmonth, hbefore⟩ := monthDays_eq d.year hvalid.first hvalid.last
  have hleaps := leapYears_eq h hmax
  have hyears := daysBeforeYear_eq h
  have hbound := number_lt h hmax hvalid
  generalize (d.year - 1 - 1968) / 4 - (d.year - 1 - 1900) / 100 + (d.year - 1 - 1600) / 400 = n
    at hleaps hyears
  have hpos := hvalid.pos
  have hle := hvalid.le
  have hsmall : d.day ≤ 31 := hle.trans (by unfold monthLength; split_ifs <;> omega)
  have hless : ydays ≤ daysBeforeMonth d.year d.month := by
    rw [hbefore]
    split_ifs <;> omega
  have hlast := hvalid.last
  have hyear : daysBeforeMonth d.year d.month ≤ 366 := by
    have hthirteen : daysBeforeMonth d.year d.month ≤ daysBeforeMonth d.year 13 :=
      daysBeforeMonth_le (by omega)
    rw [daysBeforeMonth_end, yearLength] at hthirteen
    split_ifs at hthirteen <;> omega
  have hnumber : d.number 1970 = daysBeforeYear 1970 d.year +
      daysBeforeMonth d.year d.month + (d.day - 1) := rfl
  rw [daysOf]
  simp only [← isLeap.eq_def, hmonth, orRefuse, value_bind]
  rw [if_neg (by omega), sub_of_le hpos, value_bind, word_of_lt (by omega), value_bind,
    word_of_lt (by split_ifs <;> omega), value_bind, hleaps, value_bind, sub_of_le h, value_bind]
  have htotal : (d.year - 1970) * 365 + n +
      (if isLeap d.year = true ∧ 2 < d.month then ydays + (d.day - 1) + 1 else ydays + (d.day - 1)) =
      d.number 1970 := by
    rw [hnumber, hyears, hbefore]
    split_ifs <;> omega
  rw [htotal, word_of_lt (by omega)]

theorem daysOf_refused {d : Date} (h : ¬ d.Valid) : daysOf d.year d.month d.day = .refused := by
  rw [daysOf]
  by_cases hmonth : 1 ≤ d.month ∧ d.month ≤ 12
  · obtain ⟨ydays, hdays, -⟩ := monthDays_eq d.year hmonth.1 hmonth.2
    have hday : monthLength d.year d.month < d.day ∨ d.day = 0 := by
      by_contra hnot
      exact h ⟨hmonth.1, hmonth.2, by omega, by omega⟩
    simp only [← isLeap.eq_def, hdays, orRefuse, value_bind, if_pos hday]
  · simp only [monthDays_none _ hmonth, orRefuse, refused_bind]

/-! The digits. -/

theorem toNat_digit {d : ℕ} (h : d < 10) : (digit d).toNat = 0x30 + d := by
  rw [digit, UInt8.toNat_ofNat', Nat.mod_eq_of_lt]
  omega

theorem toDigit_digit {d : ℕ} (h : d < 10) : toDigit (digit d) = some d := by
  rw [toDigit, toNat_digit h, if_pos (by omega), Nat.add_sub_cancel_left]

theorem toDigit_lt {b : UInt8} {d : ℕ} (h : toDigit b = some d) : d < 10 := by
  unfold toDigit at h
  split_ifs at h with hb
  cases h
  omega

theorem byteAt_of_getElem? {b : Bytes} {i : ℕ} {x : UInt8} (h : b[i]? = some x) :
    byteAt b i = .value x := by
  rw [byteAt, h]
  rfl

theorem two_of_pair {b : Bytes} {i n : ℕ} (hn : n < 100) (hhi : b[i]? = some (digit (n / 10)))
    (hlo : b[i + 1]? = some (digit (n % 10))) : two b i = .value n := by
  have hdigits : n / 10 * 10 + n % 10 = n := by omega
  rw [two, byteAt_of_getElem? hhi, value_bind, toDigit_digit (by omega), orRefuse, value_bind,
    byteAt_of_getElem? hlo, value_bind, toDigit_digit (by omega), orRefuse, value_bind, hdigits]
  rfl

/-- The weights of the digits of a fraction from one of them on. -/
def weigh : ℕ → List ℕ → ℕ
  | _, [] => 0
  | mult, d :: ds => mult * d + weigh (mult / 10) ds

theorem weigh_zero (ds : List ℕ) : weigh 0 ds = 0 := by
  induction ds with
  | nil => rfl
  | cons d ds ih => rw [weigh, Nat.zero_mul, Nat.zero_div, ih]

theorem weigh_pow (k : ℕ) (ds : List ℕ) :
    weigh (10 ^ k) ds = ∑ i ∈ Finset.range (k + 1), ds.getD i 0 * 10 ^ (k - i) := by
  induction k generalizing ds with
  | zero =>
    cases ds with
    | nil => rfl
    | cons d ds => simp [weigh, weigh_zero]
  | succ k ih =>
    cases ds with
    | nil => simp [weigh]
    | cons d ds =>
      have hdiv : 10 ^ (k + 1) / 10 = 10 ^ k := by
        rw [pow_succ]
        exact Nat.mul_div_cancel _ (by decide)
      have hsum : ∑ i ∈ Finset.range (k + 1 + 1), (d :: ds).getD i 0 * 10 ^ (k + 1 - i) =
          (∑ i ∈ Finset.range (k + 1), ds.getD i 0 * 10 ^ (k - i)) + d * 10 ^ (k + 1) := by
        rw [Finset.sum_range_succ']
        simp only [List.getD_cons_succ, List.getD_cons_zero, Nat.add_sub_add_right, Nat.sub_zero]
      rw [weigh, hdiv, ih, hsum]
      ring

theorem nanos_eq (t : Stamp) : t.nanos = weigh 100000000 (t.fraction.getD []) :=
  (weigh_pow 8 (t.fraction.getD [])).symm

theorem room_step {nanos mult d : ℕ} (hd : d < 10) (h : nanos + max (10 * mult) 1 ≤ nanoPerSec) :
    nanos + mult * d + max (10 * (mult / 10)) 1 ≤ nanoPerSec := by
  have hmul : mult * d ≤ mult * 9 := Nat.mul_le_mul_left _ (by omega)
  omega

theorem fraction_sound (len idx nanos mult : ℕ) (rest : Bytes) (hlen : 20 ≤ len)
    (h : nanos + max (10 * mult) 1 ≤ nanoPerSec) :
    fraction len idx nanos mult rest ≠ .panics ∧
      ∀ n, fraction len idx nanos mult rest = .value n → n < nanoPerSec := by
  have hnanos : nanos < nanoPerSec := by omega
  induction rest generalizing idx nanos mult with
  | nil =>
    rw [fraction]
    refine ⟨fun hpanics => (by cases hpanics), fun n hn => ?_⟩
    cases hn
    exact hnanos
  | cons b rest ih =>
    have hends : ∀ m, (if idx = m then pure nanos else .refused : Reading ℕ) ≠ .panics ∧
        ∀ n, (if idx = m then pure nanos else .refused : Reading ℕ) = .value n →
          n < nanoPerSec := fun m => by
      split_ifs
      · refine ⟨fun hpanics => (by cases hpanics), fun n hn => ?_⟩
        cases hn
        exact hnanos
      · exact ⟨fun hpanics => (by cases hpanics), fun n hn => by cases hn⟩
    rw [fraction]
    split_ifs with hz hplus
    · rw [sub_of_le (by omega), value_bind]
      exact hends _
    · rw [sub_of_le (by omega), value_bind]
      exact hends _
    · cases hdigit : toDigit b with
      | none => exact ⟨fun hpanics => (by cases hpanics), fun n hn => by cases hn⟩
      | some d =>
        have hnext := room_step (toDigit_lt hdigit) h
        have hfits : nanos + mult * d < 2 ^ 64 := by
          rw [nanoPerSec] at hnext
          omega
        rw [orRefuse, value_bind, word_of_lt hfits, value_bind]
        exact ih (idx + 1) _ _ hnext (by omega)

theorem fraction_digits {len idx nanos mult : ℕ} {ds : List ℕ} {zulu : Bool} (hds : ∀ d ∈ ds, d < 10)
    (hlen : len = idx + ds.length + zulu.toNat) (h : nanos + max (10 * mult) 1 ≤ nanoPerSec) :
    fraction len idx nanos mult (ds.map digit ++ if zulu then [letterZ] else []) =
      .value (nanos + weigh mult ds) := by
  induction ds generalizing idx nanos mult with
  | nil =>
    cases zulu with
    | false => rfl
    | true =>
      simp only [List.length_nil, Bool.toNat_true] at hlen
      rw [List.map_nil, List.nil_append, if_pos rfl, fraction, if_pos rfl, sub_of_le (by omega),
        value_bind, if_pos (by omega)]
      rfl
  | cons d ds ih =>
    have hd := hds d (by simp)
    have hnext := room_step hd h
    have hbyte : (digit d).toNat = 0x30 + d := toNat_digit hd
    have hz : digit d ≠ letterZ := fun heq => by
      rw [heq] at hbyte
      have : letterZ.toNat = 0x5A := rfl
      omega
    have hplus : digit d ≠ plus := fun heq => by
      rw [heq] at hbyte
      have : plus.toNat = 0x2B := rfl
      omega
    rw [List.map_cons, List.cons_append, fraction, if_neg hz, if_neg hplus, toDigit_digit hd,
      orRefuse, value_bind, word_of_lt (by rw [nanoPerSec] at hnext; omega), value_bind,
      ih (fun e he => hds e (by simp [he])) (by rw [hlen, List.length_cons]; omega) hnext, weigh,
      Nat.add_assoc]

/-! The text as a whole. -/

def Stamp.suffix (t : Stamp) : Bytes :=
  (t.fraction.elim [] fun ds => dot :: ds.map digit) ++ if t.zulu then [letterZ] else []

theorem Stamp.text_eq (t : Stamp) :
    t.text = digit (t.date.year / 100 / 10) :: digit (t.date.year / 100 % 10) ::
      digit (t.date.year % 100 / 10) :: digit (t.date.year % 100 % 10) :: dash ::
      digit (t.date.month / 10) :: digit (t.date.month % 10) :: dash ::
      digit (t.date.day / 10) :: digit (t.date.day % 10) :: letterT ::
      digit (t.hour / 10) :: digit (t.hour % 10) :: colon ::
      digit (t.minute / 10) :: digit (t.minute % 10) :: colon ::
      digit (t.second / 10) :: digit (t.second % 10) :: t.suffix := by
  simp only [Stamp.text, pair, Stamp.suffix, List.cons_append, List.nil_append]

theorem Stamp.nanos_lt (t : Stamp) (h : t.Written) : t.nanos < nanoPerSec := by
  have hsound := (fraction_sound (20 + (t.fraction.getD []).length) 20 0 100000000
    ((t.fraction.getD []).map digit) (by omega) (by decide)).2
  rw [nanos_eq]
  have hds : ∀ d ∈ t.fraction.getD [], d < 10 := fun d hd => by
    cases hf : t.fraction with
    | none => simp [hf] at hd
    | some ds => exact h.digits ds hf d (by simpa [hf] using hd)
  have hread : TimeRange.fraction (20 + (t.fraction.getD []).length) 20 0 100000000
      ((t.fraction.getD []).map digit ++ if false then [letterZ] else []) =
      .value (0 + weigh 100000000 (t.fraction.getD [])) := fraction_digits hds rfl (by decide)
  simp only [Bool.false_eq_true, if_false, List.append_nil, Nat.zero_add] at hread
  exact hsound _ hread

theorem Stamp.nanosOf_text (t : Stamp) (h : t.Written) : nanosOf t.text = .value t.nanos := by
  rw [t.text_eq, nanos_eq]
  cases hf : t.fraction with
  | none =>
    cases hz : t.zulu with
    | false =>
      simp [nanosOf, Stamp.suffix, hf, hz, weigh]
      rfl
    | true =>
      simp [nanosOf, Stamp.suffix, hf, hz, weigh, byteAt]
      rfl
  | some ds =>
    have hread : TimeRange.fraction (20 + ds.length + t.zulu.toNat) 20 0 100000000
        (ds.map digit ++ if t.zulu then [letterZ] else []) = .value (0 + weigh 100000000 ds) :=
      fraction_digits (h.digits ds hf) rfl (by decide)
    rw [nanosOf, if_pos (by simp [Stamp.suffix, hf])]
    simp only [Stamp.suffix, hf, Option.elim_some, List.cons_append, List.drop_succ_cons,
      List.drop_zero, Option.getD_some]
    rw [Nat.zero_add] at hread
    rw [← hread]
    congr 1
    cases t.zulu <;> simp <;> omega

/-- The end of a reading: the instant so many seconds and nanoseconds after the epoch. -/
def instant (secs nanos : ℕ) : Reading SystemTime := do
  let totalSeconds ← word secs
  if rfc3339MaxSeconds < totalSeconds then .refused
  else orPanic ((Duration.new (UInt64.ofNat totalSeconds) (UInt32.ofNat nanos)).bind unixEpochPlus)

theorem parse_text (t : Stamp) (h : t.Written) :
    parseRfc3339Weak t.text =
      if t.date.year < 1970 ∨ 23 < t.hour ∨ 59 < t.minute ∨ 60 < t.second then .refused
      else daysOf t.date.year t.date.month t.date.day >>= fun days =>
        instant (t.time + days * 86400) t.nanos := by
  have hyear := h.year
  have hcentury : two t.text 0 = .value (t.date.year / 100) :=
    two_of_pair (by omega) (by rw [t.text_eq]; rfl) (by rw [t.text_eq]; rfl)
  have hrest : two t.text 2 = .value (t.date.year % 100) :=
    two_of_pair (by omega) (by rw [t.text_eq]; rfl) (by rw [t.text_eq]; rfl)
  have hmonth : two t.text 5 = .value t.date.month :=
    two_of_pair h.month (by rw [t.text_eq]; rfl) (by rw [t.text_eq]; rfl)
  have hday : two t.text 8 = .value t.date.day :=
    two_of_pair h.day (by rw [t.text_eq]; rfl) (by rw [t.text_eq]; rfl)
  have hhour : two t.text 11 = .value t.hour :=
    two_of_pair h.hour (by rw [t.text_eq]; rfl) (by rw [t.text_eq]; rfl)
  have hminute : two t.text 14 = .value t.minute :=
    two_of_pair h.minute (by rw [t.text_eq]; rfl) (by rw [t.text_eq]; rfl)
  have hsecond : two t.text 17 = .value t.second :=
    two_of_pair h.second (by rw [t.text_eq]; rfl) (by rw [t.text_eq]; rfl)
  have hseparators : separators t.text = .value () := by
    rw [t.text_eq]
    rfl
  have hlength : ¬ t.text.length < 19 := by
    rw [t.text_eq]
    simp
  have hwhole : t.date.year / 100 * 100 + t.date.year % 100 = t.date.year := by omega
  have htime : (if t.second = 60 then 59 else t.second) + t.minute * 60 + t.hour * 3600 = t.time ∨
      60 < t.second := by
    rw [Stamp.time]
    split_ifs <;> omega
  rw [parseRfc3339Weak, if_neg hlength]
  simp only [hseparators, hcentury, hrest, hmonth, hday, hhour, hminute, hsecond, value_bind, hwhole,
    t.nanosOf_text h]
  by_cases hrange : t.date.year < 1970 ∨ 23 < t.hour ∨ 59 < t.minute ∨ 60 < t.second
  · rw [if_pos hrange, if_pos hrange]
  · rw [if_neg hrange, if_neg hrange, htime.resolve_right (by omega)]
    rfl

theorem instant_eq {secs nanos : ℕ} (hsecs : secs ≤ rfc3339MaxSeconds) (hnanos : nanos < nanoPerSec) :
    ∃ time : SystemTime, instant secs nanos = .value time ∧ time.sinceEpoch.secs.toNat = secs ∧
      time.sinceEpoch.subsecNanos.toNat = nanos := by
  rw [rfc3339MaxSeconds] at hsecs
  have hword : (UInt64.ofNat secs).toNat = secs := by
    rw [UInt64.toNat_ofNat', Nat.mod_eq_of_lt]
    omega
  have hsmall : (UInt32.ofNat nanos).toNat = nanos := by
    rw [UInt32.toNat_ofNat', Nat.mod_eq_of_lt]
    rw [nanoPerSec] at hnanos
    omega
  have hbelow : (UInt32.ofNat nanos).toNat < nanoPerSec := by
    rw [hsmall]
    exact hnanos
  refine ⟨⟨⟨UInt64.ofNat secs, UInt32.ofNat nanos, hbelow⟩⟩, ?_, hword, hsmall⟩
  rw [instant, word_of_lt (by omega), value_bind, if_neg (by rw [rfc3339MaxSeconds]; omega),
    Duration.new, dif_pos hbelow, Option.bind_some, unixEpochPlus, if_pos (by rw [hword]; omega)]
  rfl

/-! Nothing panics. -/

theorem two_ne_panics {b : Bytes} {i : ℕ} (h : i + 1 < b.length) : two b i ≠ .panics := by
  obtain ⟨x, hx⟩ : ∃ x, b[i]? = some x := ⟨_, List.getElem?_eq_getElem (by omega)⟩
  obtain ⟨y, hy⟩ : ∃ y, b[i + 1]? = some y := ⟨_, List.getElem?_eq_getElem h⟩
  rw [two, byteAt_of_getElem? hx, value_bind]
  cases toDigit x with
  | none => exact fun hpanics => by cases hpanics
  | some hi =>
    rw [orRefuse, value_bind, byteAt_of_getElem? hy, value_bind]
    cases toDigit y with
    | none => exact fun hpanics => by cases hpanics
    | some lo => exact fun hpanics => by cases hpanics

theorem separators_ne_panics {b : Bytes} (h : 19 ≤ b.length) : separators b ≠ .panics := by
  have hbyte : ∀ i, i < 19 → ∃ x, byteAt b i = .value x := fun i hi =>
    ⟨_, byteAt_of_getElem? (List.getElem?_eq_getElem (by omega))⟩
  obtain ⟨b4, h4⟩ := hbyte 4 (by decide)
  obtain ⟨b7, h7⟩ := hbyte 7 (by decide)
  obtain ⟨b10, h10⟩ := hbyte 10 (by decide)
  obtain ⟨b13, h13⟩ := hbyte 13 (by decide)
  obtain ⟨b16, h16⟩ := hbyte 16 (by decide)
  rw [separators, h4, value_bind, h7, value_bind, h10, value_bind, h13, value_bind, h16, value_bind]
  split_ifs
  · exact fun hpanics => by cases hpanics
  · exact fun hpanics => by cases hpanics

theorem nanosOf_sound {b : Bytes} (h : 19 ≤ b.length) :
    nanosOf b ≠ .panics ∧ ∀ n, nanosOf b = .value n → n < nanoPerSec := by
  have hzero : (pure 0 : Reading ℕ) ≠ .panics ∧ ∀ n, (pure 0 : Reading ℕ) = .value n →
      n < nanoPerSec := by
    refine ⟨fun hpanics => (by cases hpanics), fun n hn => ?_⟩
    cases hn
    decide
  have hno : (.refused : Reading ℕ) ≠ .panics ∧ ∀ n, (.refused : Reading ℕ) = .value n →
      n < nanoPerSec := ⟨fun hpanics => (by cases hpanics), fun n hn => by cases hn⟩
  rw [nanosOf]
  by_cases hdot : b[19]? = some dot
  · rw [if_pos hdot]
    have hlength := (List.getElem?_eq_some_iff.mp hdot).1
    exact fraction_sound _ _ _ _ _ (by omega) (by decide)
  rw [if_neg hdot]
  by_cases hlen : b.length ≠ 19
  · rw [if_pos hlen]
    by_cases hlong : 25 < b.length
    · rw [if_pos hlong]
      exact hno
    · rw [if_neg hlong, byteAt_of_getElem? (List.getElem?_eq_getElem (by omega)), value_bind]
      by_cases hzone : b[19] ≠ letterZ ∧ b.drop 19 ≠ zeroOffset
      · rw [if_pos hzone]
        exact hno
      · rw [if_neg hzone]
        exact hzero
  · rw [if_neg hlen]
    exact hzero

theorem daysOf_ne_panics {year month day : ℕ} (h : 1970 ≤ year) (hmax : year < 10000) :
    daysOf year month day ≠ .panics ∧
      ∀ days, daysOf year month day = .value days → days < 2932897 := by
  by_cases hvalid : Date.Valid ⟨year, month, day⟩
  · have hdays := @daysOf_eq ⟨year, month, day⟩ h hmax hvalid
    have hlt := @number_lt ⟨year, month, day⟩ h hmax hvalid
    simp only at hdays
    rw [hdays]
    refine ⟨fun hpanics => (by cases hpanics), fun days hday => ?_⟩
    cases hday
    exact hlt
  · have hdays := @daysOf_refused ⟨year, month, day⟩ hvalid
    simp only at hdays
    rw [hdays]
    exact ⟨fun hpanics => (by cases hpanics), fun days hday => by cases hday⟩

theorem two_lt {b : Bytes} {i n : ℕ} (hi : i + 1 < b.length) (h : two b i = .value n) : n < 100 := by
  rw [two, byteAt_of_getElem? (List.getElem?_eq_getElem (by omega)), value_bind] at h
  cases hx : toDigit (b.get ⟨i, by omega⟩) with
  | none =>
    rw [show toDigit b[i] = none from hx] at h
    cases h
  | some hi' =>
    rw [show toDigit b[i] = some hi' from hx, orRefuse, value_bind,
      byteAt_of_getElem? (List.getElem?_eq_getElem hi), value_bind] at h
    cases hy : toDigit (b.get ⟨i + 1, hi⟩) with
    | none =>
      rw [show toDigit b[i + 1] = none from hy] at h
      cases h
    | some lo =>
      rw [show toDigit b[i + 1] = some lo from hy] at h
      have hhi := toDigit_lt hx
      have hlo := toDigit_lt hy
      cases h
      omega

theorem parse_ne_panics (b : Bytes) : parseRfc3339Weak b ≠ .panics := by
  rw [parseRfc3339Weak]
  split_ifs with hlen
  · exact fun hpanics => by cases hpanics
  rw [Nat.not_lt] at hlen
  refine bind_ne_panics (separators_ne_panics hlen) fun _ _ => ?_
  refine bind_ne_panics (two_ne_panics (by omega)) fun century hcentury => ?_
  refine bind_ne_panics (two_ne_panics (by omega)) fun years hyears => ?_
  refine bind_ne_panics (two_ne_panics (by omega)) fun month _ => ?_
  refine bind_ne_panics (two_ne_panics (by omega)) fun day _ => ?_
  refine bind_ne_panics (two_ne_panics (by omega)) fun hour _ => ?_
  refine bind_ne_panics (two_ne_panics (by omega)) fun minute _ => ?_
  refine bind_ne_panics (two_ne_panics (by omega)) fun second _ => ?_
  have hc := two_lt (by omega) hcentury
  have hy := two_lt (by omega) hyears
  split_ifs with hrange hsixty
  · exact fun hpanics => by cases hpanics
  all_goals
    obtain ⟨hdays, hfew⟩ := @daysOf_ne_panics (century * 100 + years) month day (by omega) (by omega)
    refine bind_ne_panics hdays fun days hread => ?_
    have hless := hfew days hread
    obtain ⟨hnanos, hsmall⟩ := nanosOf_sound hlen
    refine bind_ne_panics hnanos fun nanos hnread => ?_
    have hsub := hsmall nanos hnread
    rw [word_of_lt (by omega), value_bind]
    split_ifs with hmax
    · exact fun hpanics => by cases hpanics
    · obtain ⟨time, htime, -⟩ := instant_eq (Nat.le_of_not_lt hmax) hsub
      rw [instant, word_of_lt (by omega), value_bind, if_neg hmax] at htime
      rw [htime]
      exact fun hpanics => by cases hpanics

/-- A text that names an instant is read as the calendar counts its days, one that names none is
refused, and no text panics. -/
theorem parse_gregorian (t : Stamp) (b : Bytes) :
    (t.Written → 1970 ≤ t.date.year → t.Occurs →
      ∃ days, (∀ n, Date.next^[n] (firstDay 1970) = t.date ↔ n = days) ∧
        ∃ time : SystemTime, parseRfc3339Weak t.text = .value time ∧
          time.sinceEpoch.secs.toNat = 86400 * days + t.time ∧
          time.sinceEpoch.subsecNanos.toNat = t.nanos) ∧
    (t.Written → ¬ t.Occurs → parseRfc3339Weak t.text = .refused) ∧
    parseRfc3339Weak b ≠ .panics := by
  refine ⟨fun hwritten hyear hoccurs => ?_, fun hwritten hnot => ?_, parse_ne_panics b⟩
  · have hmax := hwritten.year
    have hlt := number_lt hyear hmax hoccurs.date
    have hhour := hoccurs.hour
    have hminute := hoccurs.minute
    have hsecond := hoccurs.second
    have htime : t.time < 86400 := by
      rw [Stamp.time]
      omega
    refine ⟨t.date.number 1970, fun n => iterate_next_eq_iff hoccurs.date hyear n, ?_⟩
    obtain ⟨time, hread, hsecs, hnanos⟩ := @instant_eq (t.time + t.date.number 1970 * 86400) t.nanos
      (by rw [rfc3339MaxSeconds]; omega) (t.nanos_lt hwritten)
    refine ⟨time, ?_, by omega, hnanos⟩
    rw [parse_text t hwritten, if_neg (by omega), daysOf_eq hyear hmax hoccurs.date, value_bind, hread]
  · rw [parse_text t hwritten]
    split_ifs with hrange
    · rfl
    · have hdate : ¬ t.date.Valid := fun hvalid => hnot ⟨hvalid, by omega, by omega, by omega⟩
      rw [daysOf_refused hdate, refused_bind]

/-- The last half second of a leap day. -/
theorem parse_gregorian_leap :
    let t : Stamp := ⟨⟨2024, 2, 29⟩, 23, 59, 59, some [5, 0, 0], true⟩
    ∃ days, (∀ n, Date.next^[n] (firstDay 1970) = ⟨2024, 2, 29⟩ ↔ n = days) ∧
      ∃ time : SystemTime, parseRfc3339Weak t.text = .value time ∧
        time.sinceEpoch.secs.toNat = 86400 * days + 86399 ∧
        time.sinceEpoch.subsecNanos.toNat = 500000000 := by
  intro t
  have hwritten : t.Written := ⟨by decide, by decide, by decide, by decide, by decide, by decide, by
    rintro ds hds
    cases hds
    decide⟩
  have hoccurs : t.Occurs := by
    refine ⟨?_, by decide, by decide, by decide⟩
    constructor <;> decide
  have htime : t.time = 86399 := by decide
  have hnanos : t.nanos = 500000000 := by decide
  obtain ⟨days, hdays, time, hread, hsecs, hsub⟩ := (parse_gregorian t []).1 hwritten (by decide) hoccurs
  rw [htime] at hsecs
  rw [hnanos] at hsub
  exact ⟨days, hdays, time, hread, hsecs, hsub⟩

end WatchingZenoh.TimeRange
