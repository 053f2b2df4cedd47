import Slopix.Lib.Calendar
import Mathlib.Tactic.IntervalCases

/-!
# `localtime`

`libc/time.c` takes years and months off the days since 1970-01-01. What is left of the days when the
loops end is the date that many days later.
-/

namespace Slopix.Libc

open Lib Int

/-! ## The model -/

/-- `struct tm`. -/
structure Tm where
  tmSec : Int
  tmMin : Int
  tmHour : Int
  tmMday : Int
  tmMon : Int
  tmYear : Int
  tmWday : Int
  tmYday : Int
  tmIsdst : Int
  deriving DecidableEq

/-- `is_leap`. -/
def isLeap (year : Int) : Bool :=
  (year.tmod 4 == 0 && year.tmod 100 != 0) || year.tmod 400 == 0

/-- The table `mdays`. -/
def mdays : List Int := [31, 28, 31, 30, 31, 30, 31, 31, 30, 31, 30, 31]

/-- `days_in_month`. -/
def daysInMonth (mon : Nat) (year : Int) : Int :=
  if mon = 1 ∧ isLeap year then 29 else mdays.getD mon 0

/-- The loop over the years. -/
def yearLoop : Nat → Int → Int → Int × Int
  | 0, year, days => (year, days)
  | fuel + 1, year, days =>
    let yd := if isLeap year then 366 else 365
    if days < yd then (year, days) else yearLoop fuel (year + 1) (days - yd)

/-- The loop over the months. -/
def monthLoop : Nat → Nat → Int → Int → Nat × Int
  | 0, mon, _, days => (mon, days)
  | fuel + 1, mon, year, days =>
    if mon < 11 ∧ daysInMonth mon year ≤ days then
      monthLoop fuel (mon + 1) year (days - daysInMonth mon year)
    else (mon, days)

/-- The fields, when the loop over the years has ended. There are twelve months. -/
def setFields (secs days year yday : Int) : Tm :=
  let months := monthLoop 12 0 year yday
  { tmSec := secs.tmod 60
    tmMin := (secs.tmod 3600).tdiv 60
    tmHour := secs.tdiv 3600
    tmMday := months.2 + 1
    tmMon := months.1
    tmYear := year - 1900
    tmWday := (days.tmod 7 + 4).tmod 7
    tmYday := yday
    tmIsdst := 0 }

/-- `localtime`. A pass over the years takes at least a day off. -/
def localtime (t : Int) : Tm :=
  let secs := t.tmod 86400
  let secs := if secs < 0 then secs + 86400 else secs
  let days := (t.tdiv 86400).bmod (2 ^ 32)
  let years := yearLoop (days.toNat + 1) 1970 days
  setFields secs days years.1 years.2

/-! ## What it should return -/

/-- The date `n` days after 1970-01-01. -/
def dateAfter (n : Nat) : Date := Date.ofYear 1970 n

/-- The fields of `t` seconds after 1970-01-01 00:00:00, which was a Thursday. -/
def calendarTime (t : Nat) : Tm :=
  let date := dateAfter (t / 86400)
  { tmSec := (t % 60 : Nat)
    tmMin := (t / 60 % 60 : Nat)
    tmHour := (t / 3600 % 24 : Nat)
    tmMday := date.day
    tmMon := date.month - 1
    tmYear := date.year - 1900
    tmWday := ((4 + t / 86400) % 7 : Nat)
    tmYday := date.dayOfYear
    tmIsdst := 0 }

/-- The date of a `struct tm`. -/
def Tm.date (tm : Tm) : Date := ⟨(tm.tmYear + 1900).toNat, (tm.tmMon + 1).toNat, tm.tmMday.toNat⟩

/-- The seconds since 1970-01-01 00:00:00 that the fields stand for. -/
def Tm.seconds (tm : Tm) : Int :=
  ((tm.date.dayNumber : Int) - Date.daysBeforeYear 1970) * 86400 + tm.tmHour * 3600 + tm.tmMin * 60 +
    tm.tmSec

/-- The fields in the order in which times are compared. -/
def Tm.key (tm : Tm) : List Int :=
  [tm.tmYear, tm.tmMon, tm.tmMday, tm.tmHour, tm.tmMin, tm.tmSec]

/-! ## The loops -/

section

variable {y n m fuel : Nat}

theorem isLeap_iff (y : Nat) : isLeap y = true ↔ LeapYear y := by
  have hy : (0 : Int) ≤ y := natCast_nonneg y
  simp only [isLeap, tmod_eq_emod_of_nonneg hy, LeapYear, Nat.dvd_iff_mod_eq_zero, Bool.or_eq_true,
    Bool.and_eq_true, beq_iff_eq, bne_iff_ne, ne_eq]
  omega

theorem yearDays (y : Nat) : (if isLeap y then 366 else 365 : Int) = yearLength y := by
  simp only [isLeap_iff, yearLength]
  split <;> rfl

theorem daysInMonth_eq (hm : m < 12) : daysInMonth m y = monthLength y (m + 1) := by
  have hfeb : daysInMonth 1 y = monthLength y 2 := by
    simp only [daysInMonth, isLeap_iff, monthLength, true_and]
    split <;> rfl
  interval_cases m
  case «1» => exact hfeb
  all_goals rfl

theorem yearLength_pos (y : Nat) : 0 < yearLength y := by
  unfold yearLength
  split <;> simp

/-- **The years that the loop takes off leave the same date.** -/
theorem yearLoop_spec (hfuel : n < fuel) : ∃ y' n' : Nat, yearLoop fuel y n = (↑y', ↑n') ∧
    n' < yearLength y' ∧ Date.ofYear y n = Date.ofYear y' n' := by
  induction fuel generalizing y n with
  | zero => exact absurd hfuel (Nat.not_lt_zero n)
  | succ fuel ih =>
    simp only [yearLoop, yearDays, ofNat_lt]
    split
    · rename_i hlt
      exact ⟨y, n, rfl, hlt, rfl⟩
    rename_i hge
    have hpos := yearLength_pos y
    obtain ⟨y', n', hloop, hlt, hdate⟩ := @ih (y + 1) (n - yearLength y) (by omega)
    refine ⟨y', n', ?_, hlt, (Date.ofYear_year (Nat.le_of_not_lt hge)).trans hdate⟩
    rw [← hloop]
    congr 1
    omega

theorem monthLoop_spec (hm : m + fuel = 12) (hfuel : 0 < fuel) (hlo : Date.daysBefore y m ≤ n)
    (hhi : n < yearLength y) :
    ∃ m' < 12, Date.daysBefore y m' ≤ n ∧ n < Date.daysBefore y (m' + 1) ∧
      monthLoop fuel m y (n - Date.daysBefore y m : Nat) = (m', ((n - Date.daysBefore y m' : Nat) : Int)) := by
  induction fuel generalizing m with
  | zero => exact absurd hfuel (Nat.lt_irrefl 0)
  | succ fuel ih =>
    have hlt : m < 12 := by omega
    simp only [monthLoop, daysInMonth_eq hlt, ofNat_le]
    split
    · rename_i hgo
      have hsucc := daysBefore_succ y m
      obtain ⟨m', hm', hlo', hhi', hloop⟩ := @ih (m + 1) (by omega) (by omega) (by omega)
      refine ⟨m', hm', hlo', hhi', ?_⟩
      rw [← hloop]
      congr 1
      omega
    refine ⟨m, hlt, hlo, ?_, rfl⟩
    rw [daysBefore_succ]
    by_cases hlast : m < 11
    · omega
    -- in December the loop stops because the year has no more months
    obtain rfl : m = 11 := by omega
    have hyear := daysBefore_twelve y
    rw [daysBefore_succ] at hyear
    omega

end

/-! ## The result -/

section

variable {t : Nat}

theorem setFields_eq {secs days y n : Nat} (hn : n < yearLength y) :
    setFields secs days y n =
      { tmSec := (secs % 60 : Nat), tmMin := (secs % 3600 / 60 : Nat), tmHour := (secs / 3600 : Nat),
        tmMday := (Date.ofYear y n).day, tmMon := (Date.ofYear y n).month - 1,
        tmYear := (Date.ofYear y n).year - 1900, tmWday := ((4 + days) % 7 : Nat),
        tmYday := (Date.ofYear y n).dayOfYear, tmIsdst := 0 } := by
  obtain ⟨m, hm, hlo, hhi, hmonths⟩ := @monthLoop_spec y n 0 12 rfl (by simp) (by simp [Date.daysBefore]) hn
  have hmonths' : monthLoop 12 0 y n = (m, ((n - Date.daysBefore y m : Nat) : Int)) := by simpa [Date.daysBefore] using hmonths
  have hsecs : (0 : Int) ≤ secs := natCast_nonneg secs
  have hmod : (0 : Int) ≤ secs % 3600 := by omega
  have hwday : (0 : Int) ≤ (days : Int) % 7 + 4 := by omega
  rw [Date.ofYear_month hm hlo hhi]
  simp only [setFields, hmonths', tmod_eq_emod_of_nonneg hsecs, tdiv_eq_ediv_of_nonneg hsecs,
    tdiv_eq_ediv_of_nonneg hmod, tmod_eq_emod_of_nonneg (natCast_nonneg days),
    tmod_eq_emod_of_nonneg hwday, Tm.mk.injEq, Date.dayOfYear, Nat.add_sub_cancel]
  refine ⟨?_, ?_, ?_, ?_, ?_, trivial, ?_, ?_, trivial⟩ <;> omega

/-- **`localtime` returns the calendar's fields.** -/
theorem localtime_eq (ht : t / 86400 < 2 ^ 31) : localtime t = calendarTime t := by
  have ht0 : (0 : Int) ≤ t := natCast_nonneg t
  have hdays : ((t : Int).tdiv 86400).bmod (2 ^ 32) = (t / 86400 : Nat) := by
    rw [tdiv_eq_ediv_of_nonneg ht0]
    exact bmod_eq_of_le (by omega) (by omega)
  have hsecs : (if (t : Int).tmod 86400 < 0 then (t : Int).tmod 86400 + 86400 else (t : Int).tmod 86400) =
      (t % 86400 : Nat) := by
    rw [tmod_eq_emod_of_nonneg ht0, if_neg (by omega)]
    omega
  obtain ⟨y, n, hyears, hn, hdate⟩ := @yearLoop_spec 1970 (t / 86400) _ (Nat.lt_succ_self _)
  unfold localtime
  simp only [hdays, hsecs, toNat_natCast]
  rw [show yearLoop (t / 86400 + 1) 1970 (t / 86400 : Nat) = (↑y, ↑n) from hyears]
  rw [setFields_eq hn, ← hdate, calendarTime, Tm.mk.injEq]
  refine ⟨?_, ?_, ?_, rfl, rfl, rfl, rfl, rfl, rfl⟩ <;> omega

theorem date_calendarTime (t : Nat) : (calendarTime t).date = dateAfter (t / 86400) := by
  have hvalid : (dateAfter (t / 86400)).Valid := Date.valid_ofYear (by simp) _
  simp only [calendarTime, Tm.date]
  generalize dateAfter (t / 86400) = d at hvalid
  obtain ⟨y, m, n⟩ := d
  have hmonth := hvalid.month.1
  simp only [Date.mk.injEq] at hmonth ⊢
  omega

/-- The fields stand for the seconds they were made from. -/
theorem seconds_calendarTime (t : Nat) : (calendarTime t).seconds = t := by
  have hnumber : (dateAfter (t / 86400)).dayNumber = Date.daysBeforeYear 1970 + t / 86400 :=
    Date.dayNumber_ofYear (by simp) _
  rw [Tm.seconds, date_calendarTime, hnumber]
  simp only [calendarTime]
  omega

/-- Whatever follows the fields of the date, those of the day after are larger. -/
theorem date_lt_next (d : Date) (l l' : List Int) :
    (d.year - 1900 : Int) :: (d.month - 1 : Int) :: (d.day : Int) :: l <
      (d.next.year - 1900 : Int) :: (d.next.month - 1 : Int) :: (d.next.day : Int) :: l' := by
  unfold Date.next
  split
  · exact .cons (.cons (.rel (by simp)))
  · split
    · exact .cons (.rel (by simp))
    · exact .rel (by simp)

theorem key_lt_succ (t : Nat) : (calendarTime t).key < (calendarTime (t + 1)).key := by
  by_cases hday : (t + 1) / 86400 = t / 86400
  · -- the same day: the time of day has grown
    have htime : [(t / 3600 % 24 : Nat), (t / 60 % 60 : Nat), (t % 60 : Nat)] <
        [((t + 1) / 3600 % 24 : Nat), ((t + 1) / 60 % 60 : Nat), ((t + 1) % 60 : Nat)] := by
      by_cases hhour : (t + 1) / 3600 % 24 = t / 3600 % 24
      · rw [hhour]
        by_cases hmin : (t + 1) / 60 % 60 = t / 60 % 60
        · rw [hmin]
          exact .cons (.cons (.rel (by omega)))
        · exact .cons (.rel (by omega))
      · exact .rel (by omega)
    simp only [calendarTime, Tm.key, hday]
    refine .cons (.cons (.cons ?_))
    have hmap := List.map_lt (f := fun n : Nat => (n : Int)) (fun _ _ h => ofNat_lt.2 h) htime
    exact hmap
  have hnext : dateAfter ((t + 1) / 86400) = (dateAfter (t / 86400)).next := by
    rw [show (t + 1) / 86400 = t / 86400 + 1 by omega]
    exact Date.ofYear_succ 1970 (t / 86400)
  simp only [calendarTime, Tm.key, hnext]
  exact date_lt_next _ _ _

/-- **The fields are those of the calendar, stand for the time they were made from, and grow with every
second.** -/
theorem localtime_exact (t : Nat) (ht : t / 86400 < 2 ^ 31) :
    localtime t = calendarTime t ∧ (localtime t).seconds = t ∧
      ((t + 1) / 86400 < 2 ^ 31 → (localtime t).key < (localtime (t + 1 : Nat)).key) := by
  refine ⟨localtime_eq ht, ?_, fun hsucc => ?_⟩
  · rw [localtime_eq ht, seconds_calendarTime]
  · rw [localtime_eq ht, localtime_eq hsucc]
    exact key_lt_succ t

/-- The last second of a leap day, a Tuesday, and the one behind it. -/
theorem localtime_exact_leap_day : localtime 68255999 = ⟨59, 59, 23, 29, 1, 72, 2, 59, 0⟩ ∧
    localtime 68256000 = ⟨0, 0, 0, 1, 2, 72, 3, 60, 0⟩ ∧
    localtime (68255999 : Nat) = calendarTime 68255999 ∧ (localtime (68255999 : Nat)).seconds = 68255999 := by
  obtain ⟨hfields, hseconds, -⟩ := localtime_exact 68255999 (by decide)
  exact ⟨by decide +kernel, by decide +kernel, hfields, hseconds⟩

end

end Slopix.Libc
