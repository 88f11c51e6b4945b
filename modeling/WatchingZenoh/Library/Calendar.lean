import Mathlib

/-! The proleptic Gregorian calendar: dates, the day after a date, and the number of a day counted
from the first of January of a base year. The day after has the next number, so that the number of a
date is how many days it lies after the base. -/

namespace WatchingZenoh.Calendar

def isLeap (year : ℕ) : Bool := decide (year % 4 = 0 ∧ (year % 100 ≠ 0 ∨ year % 400 = 0))

def monthLength (year month : ℕ) : ℕ :=
  if month = 2 then (if isLeap year then 29 else 28)
  else if month = 4 ∨ month = 6 ∨ month = 9 ∨ month = 11 then 30
  else 31

@[ext]
structure Date where
  year : ℕ
  month : ℕ
  day : ℕ
  deriving DecidableEq, Repr

namespace Date

structure Valid (d : Date) : Prop where
  first : 1 ≤ d.month
  last : d.month ≤ 12
  pos : 1 ≤ d.day
  le : d.day ≤ monthLength d.year d.month

def next (d : Date) : Date :=
  if d.day < monthLength d.year d.month then { d with day := d.day + 1 }
  else if d.month < 12 then ⟨d.year, d.month + 1, 1⟩
  else ⟨d.year + 1, 1, 1⟩

end Date

theorem monthLength_pos (year month : ℕ) : 1 ≤ monthLength year month := by
  unfold monthLength
  split_ifs <;> omega

theorem Date.Valid.next {d : Date} (h : d.Valid) : d.next.Valid := by
  have hfirst := h.first
  have hlast := h.last
  unfold Date.next
  split_ifs with hday hmonth
  · exact ⟨hfirst, hlast, Nat.succ_pos _, hday⟩
  · exact ⟨Nat.succ_pos _, hmonth, le_rfl, monthLength_pos _ _⟩
  · exact ⟨le_rfl, by simp, le_rfl, monthLength_pos _ _⟩

def daysBeforeMonth (year month : ℕ) : ℕ := ∑ m ∈ Finset.Ico 1 month, monthLength year m

def yearLength (year : ℕ) : ℕ := if isLeap year then 366 else 365

def daysBeforeYear (base year : ℕ) : ℕ := ∑ y ∈ Finset.Ico base year, yearLength y

/-- The number of a day, that of the first day of the base year being zero. -/
def Date.number (base : ℕ) (d : Date) : ℕ :=
  daysBeforeYear base d.year + daysBeforeMonth d.year d.month + (d.day - 1)

theorem daysBeforeMonth_succ {year month : ℕ} (h : 1 ≤ month) :
    daysBeforeMonth year (month + 1) = daysBeforeMonth year month + monthLength year month :=
  Finset.sum_Ico_succ_top h _

theorem daysBeforeYear_succ {base year : ℕ} (h : base ≤ year) :
    daysBeforeYear base (year + 1) = daysBeforeYear base year + yearLength year :=
  Finset.sum_Ico_succ_top h _

theorem daysBeforeMonth_end (year : ℕ) : daysBeforeMonth year 13 = yearLength year := by
  cases hleap : isLeap year <;>
    simp [daysBeforeMonth, Finset.sum_Ico_succ_top, monthLength, yearLength, hleap]

theorem daysBeforeMonth_le {year m n : ℕ} (h : m ≤ n) :
    daysBeforeMonth year m ≤ daysBeforeMonth year n :=
  Finset.sum_le_sum_of_subset (Finset.Ico_subset_Ico_right h)

theorem daysBeforeYear_le {base m n : ℕ} (h : m ≤ n) :
    daysBeforeYear base m ≤ daysBeforeYear base n :=
  Finset.sum_le_sum_of_subset (Finset.Ico_subset_Ico_right h)

theorem Date.Valid.number_next {base : ℕ} {d : Date} (h : d.Valid) (hbase : base ≤ d.year) :
    d.next.number base = d.number base + 1 := by
  have hpos := h.pos
  have hle := h.le
  have hmonth : daysBeforeMonth d.year (d.month + 1) =
      daysBeforeMonth d.year d.month + monthLength d.year d.month := daysBeforeMonth_succ h.first
  unfold Date.next
  split_ifs with hday hlast
  · simp only [Date.number]
    omega
  · simp only [Date.number]
    omega
  · have hdec : d.month = 12 := by
      have := h.last
      omega
    have hyear := daysBeforeYear_succ hbase
    have hend := daysBeforeMonth_end d.year
    have hfirst : daysBeforeMonth (d.year + 1) 1 = 0 := by simp [daysBeforeMonth]
    rw [show d.month + 1 = 13 by omega, hend] at hmonth
    simp only [Date.number, hyear, hfirst, hmonth]
    omega

theorem Date.Valid.number_lt {base : ℕ} {d : Date} (h : d.Valid) :
    d.number base < daysBeforeYear base d.year + daysBeforeMonth d.year (d.month + 1) := by
  have hpos := h.pos
  have hle := h.le
  rw [daysBeforeMonth_succ h.first, Date.number]
  omega

theorem Date.Valid.number_lt_year {base : ℕ} {d : Date} (h : d.Valid) (hbase : base ≤ d.year) :
    d.number base < daysBeforeYear base (d.year + 1) := by
  have hlast := h.last
  have hle : daysBeforeMonth d.year (d.month + 1) ≤ daysBeforeMonth d.year 13 :=
    daysBeforeMonth_le (by omega)
  have hlt : d.number base < daysBeforeYear base d.year + daysBeforeMonth d.year (d.month + 1) :=
    h.number_lt
  rw [daysBeforeMonth_end] at hle
  rw [daysBeforeYear_succ hbase]
  omega

theorem Date.Valid.number_inj {base : ℕ} {d e : Date} (hd : d.Valid) (he : e.Valid)
    (hdb : base ≤ d.year) (heb : base ≤ e.year) (h : d.number base = e.number base) : d = e := by
  have below : ∀ {a b : Date}, a.Valid → base ≤ a.year → a.year < b.year →
      a.number base < b.number base := fun {a b} ha hab hlt => by
    have h1 := ha.number_lt_year hab
    have h2 : daysBeforeYear base (a.year + 1) ≤ daysBeforeYear base b.year := daysBeforeYear_le hlt
    have h3 : b.number base = daysBeforeYear base b.year + daysBeforeMonth b.year b.month +
      (b.day - 1) := rfl
    omega
  have hyear : d.year = e.year := by
    rcases lt_trichotomy d.year e.year with hlt | heq | hlt
    · have := below hd hdb hlt
      omega
    · exact heq
    · have := below he heb hlt
      omega
  have within : ∀ {a b : Date}, a.Valid → a.year = b.year → a.month < b.month →
      a.number base < b.number base := fun {a b} ha hsame hlt => by
    have h1 : a.number base < daysBeforeYear base a.year + daysBeforeMonth a.year (a.month + 1) :=
      ha.number_lt
    have h2 : daysBeforeMonth a.year (a.month + 1) ≤ daysBeforeMonth a.year b.month :=
      daysBeforeMonth_le hlt
    have h3 : b.number base = daysBeforeYear base b.year + daysBeforeMonth b.year b.month +
      (b.day - 1) := rfl
    rw [← hsame] at h3
    omega
  have hmonth : d.month = e.month := by
    rcases lt_trichotomy d.month e.month with hlt | heq | hlt
    · have := within hd hyear hlt
      omega
    · exact heq
    · have := within he hyear.symm hlt
      omega
  have hdp := hd.pos
  have hep := he.pos
  have hday : d.day = e.day := by
    simp only [Date.number, hyear, hmonth] at h
    omega
  exact Date.ext hyear hmonth hday

def firstDay (base : ℕ) : Date := ⟨base, 1, 1⟩

theorem valid_firstDay (base : ℕ) : (firstDay base).Valid :=
  ⟨le_rfl, by simp [firstDay], le_rfl, monthLength_pos _ _⟩

theorem year_le_next (d : Date) : d.year ≤ d.next.year := by
  unfold Date.next
  split_ifs <;> simp

theorem iterate_next (base n : ℕ) :
    (Date.next^[n] (firstDay base)).Valid ∧ base ≤ (Date.next^[n] (firstDay base)).year ∧
      (Date.next^[n] (firstDay base)).number base = n := by
  induction n with
  | zero =>
    refine ⟨valid_firstDay base, le_rfl, ?_⟩
    simp [firstDay, Date.number, daysBeforeYear, daysBeforeMonth]
  | succ n ih =>
    obtain ⟨hvalid, hyear, hnumber⟩ := ih
    rw [Function.iterate_succ_apply']
    refine ⟨hvalid.next, hyear.trans (year_le_next _), ?_⟩
    rw [hvalid.number_next hyear, hnumber]

/-- A date is reached from the first day of the base year in as many days as its number says, and in
no other count. -/
theorem iterate_next_eq_iff {base : ℕ} {d : Date} (h : d.Valid) (hbase : base ≤ d.year) (n : ℕ) :
    Date.next^[n] (firstDay base) = d ↔ n = d.number base := by
  obtain ⟨hvalid, hyear, hnumber⟩ := iterate_next base n
  constructor
  · intro heq
    rw [← heq, hnumber]
  · intro heq
    exact hvalid.number_inj h hyear hbase (hnumber.trans heq)

end WatchingZenoh.Calendar
