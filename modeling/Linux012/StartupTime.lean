/-
The time of the start (`kernel_mktime` of kernel/mktime.c).

* `kernelMktime` — as the kernel computes it, with two digits for the year;
* `daysBefore`, `Tm.seconds` — what a calendar counts, year by year and month by month;
* `kernel_mktime` — both agree for every date of a hundred years, up to the sign of the `long`.
-/
import Mathlib.Algebra.BigOperators.Group.List.Basic
import Mathlib.Algebra.Ring.Nat
import Mathlib.Data.Int.Notation
import Mathlib.Data.Nat.Notation

namespace Sys

/-- `struct tm`, as `time_init` fills it in. -/
structure Tm where
  sec : ℕ
  min : ℕ
  hour : ℕ
  mday : ℕ
  /-- from 0 -/
  mon : ℕ
  /-- the last two digits -/
  year : ℕ

def MINUTE : BitVec 32 := 60
def HOUR : BitVec 32 := 60 * MINUTE
def DAY : BitVec 32 := 24 * HOUR
def YEAR : BitVec 32 := 365 * DAY

/-- The days of `month`, of a leap year. -/
def monthStart : List ℕ := [0, 31, 60, 91, 121, 152, 182, 213, 244, 274, 305, 335]

def kernelMktime (t : Tm) : BitVec 32 :=
  let tmYear := if t.year < 70 then t.year + 100 else t.year
  let year := tmYear - 70
  let res := YEAR * BitVec.ofNat 32 year + DAY * BitVec.ofNat 32 ((year + 1) / 4)
  let res := res + DAY * BitVec.ofNat 32 (monthStart.getD t.mon 0)
  let res := if 1 < t.mon ∧ (year + 2) % 4 ≠ 0 then res - DAY else res
  let res := res + DAY * (BitVec.ofNat 32 t.mday - 1)
  res + HOUR * BitVec.ofNat 32 t.hour + MINUTE * BitVec.ofNat 32 t.min + BitVec.ofNat 32 t.sec

/-! ### The calendar -/

def leapYear (y : ℕ) : Bool := y % 4 = 0 && (y % 100 ≠ 0 || y % 400 = 0)

def yearLength (y : ℕ) : ℕ := if leapYear y then 366 else 365

def monthLength (leap : Bool) (m : ℕ) : ℕ :=
  [31, if leap then 29 else 28, 31, 30, 31, 30, 31, 31, 30, 31, 30, 31].getD m 0

/-- The days from the start of 1970 to a month. -/
def daysBefore (y m : ℕ) : ℕ :=
  ((List.range (y - 1970)).map fun i => yearLength (1970 + i)).sum +
    ((List.range m).map (monthLength (leapYear y))).sum

namespace Tm

variable (t : Tm)

/-- The year, from 1970 to 2069. -/
def fullYear : ℕ := if t.year < 70 then 2000 + t.year else 1900 + t.year

/-- The seconds since the start of 1970. -/
def seconds : ℕ :=
  (((daysBefore t.fullYear t.mon + (t.mday - 1)) * 24 + t.hour) * 60 + t.min) * 60 + t.sec

structure Valid : Prop where
  sec : t.sec < 60
  min : t.min < 60
  hour : t.hour < 24
  mday : 1 ≤ t.mday ∧ t.mday ≤ monthLength (leapYear t.fullYear) t.mon
  mon : t.mon < 12
  year : t.year < 100

end Tm

/-- In these years every fourth one is a leap year. -/
theorem leapYear_eq {n : ℕ} (hn : n < 100) : leapYear (1970 + n) = decide ((n + 2) % 4 = 0) := by
  rw [leapYear, Bool.eq_iff_iff]
  simp only [Bool.and_eq_true, Bool.or_eq_true, decide_eq_true_eq]
  omega

theorem sum_yearLength {n : ℕ} (hn : n ≤ 100) :
    ((List.range n).map fun i => yearLength (1970 + i)).sum = 365 * n + (n + 1) / 4 := by
  induction n with
  | zero => rfl
  | succ n ih =>
    rw [List.range_succ, List.map_append, List.sum_append, ih (by omega), List.map_singleton,
      List.sum_singleton, yearLength, leapYear_eq hn]
    split_ifs with hleap
    · have := of_decide_eq_true hleap
      omega
    · have := of_decide_eq_false (Bool.not_eq_true _ ▸ hleap)
      omega

theorem sum_monthLength (leap : Bool) {m : ℕ} (hm : m < 12) :
    ((List.range m).map (monthLength leap)).sum + (if 1 < m ∧ leap = false then 1 else 0) =
      monthStart.getD m 0 := by
  revert leap m
  decide

/-- The kernel counts the seconds since 1970 as the calendar does, from 1970 to 2069; from 2³¹ on
they do not fit a `long`, and come out negative. -/
theorem kernel_mktime (t : Tm) (h : t.Valid) :
    (kernelMktime t).toInt = if t.seconds < 2 ^ 31 then (t.seconds : ℤ) else t.seconds - 2 ^ 32 := by
  obtain ⟨hsec, hmin, hhour, ⟨hmday, hlast⟩, hmon, hyear⟩ := h
  obtain ⟨n, hn, hfull, htm⟩ : ∃ n < 100, t.fullYear = 1970 + n ∧
      (if t.year < 70 then t.year + 100 else t.year) - 70 = n := by
    refine ⟨t.fullYear - 1970, ?_⟩
    rw [Tm.fullYear]
    split_ifs <;> omega
  have hyears := sum_yearLength (Nat.le_of_lt hn)
  -- the table counts a day too many in a year that is no leap year
  have hmonths : ((List.range t.mon).map (monthLength (leapYear (1970 + n)))).sum +
      (if 1 < t.mon ∧ (n + 2) % 4 ≠ 0 then 1 else 0) = monthStart.getD t.mon 0 := by
    rw [← sum_monthLength (leapYear (1970 + n)) hmon, leapYear_eq hn]
    simp only [decide_eq_false_iff_not]
  have hstart : monthStart.getD t.mon 0 ≤ 335 := by
    have hall : ∀ m < 12, monthStart.getD m 0 ≤ 335 := by decide
    exact hall _ hmon
  have hmday' : t.mday ≤ 31 := by
    have hall : ∀ leap : Bool, ∀ m < 12, monthLength leap m ≤ 31 := by decide
    exact Nat.le_trans hlast (hall _ _ hmon)
  have hseconds : t.seconds = 86400 * (365 * n + (n + 1) / 4 +
      ((List.range t.mon).map (monthLength (leapYear (1970 + n)))).sum + (t.mday - 1)) +
      3600 * t.hour + 60 * t.min + t.sec := by
    rw [Tm.seconds, daysBefore, hfull, Nat.add_sub_cancel_left, hyears]
    omega
  have hnat : (kernelMktime t).toNat = t.seconds := by
    have hyearSec : YEAR.toNat = 31536000 := rfl
    have hdaySec : DAY.toNat = 86400 := rfl
    have hhourSec : HOUR.toNat = 3600 := rfl
    have hminSec : MINUTE.toNat = 60 := rfl
    have hone : (1 : BitVec 32).toNat = 1 := rfl
    rw [kernelMktime, htm, hseconds]
    generalize monthStart.getD t.mon 0 = start at hmonths hstart ⊢
    split_ifs at hmonths ⊢ <;>
      simp only [BitVec.toNat_add, BitVec.toNat_sub, BitVec.toNat_mul, BitVec.toNat_ofNat, hyearSec,
        hdaySec, hhourSec, hminSec, hone] <;> omega
  rw [BitVec.toInt_eq_toNat_cond, hnat]
  split_ifs <;> omega

/-- A leap day. -/
theorem kernel_mktime_leap : (kernelMktime ⟨56, 34, 12, 29, 1, 0⟩).toInt = 951827696 :=
  kernel_mktime ⟨56, 34, 12, 29, 1, 0⟩
    ⟨by decide, by decide, by decide, by decide, by decide, by decide⟩

end Sys
