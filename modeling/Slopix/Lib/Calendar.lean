import Mathlib.Algebra.BigOperators.Group.Finset.Basic

/-!
# The Gregorian calendar

A date is followed by the next day of its month, by the first of the next month, or by the first of the
next year; the date `n` days after another is the `n`-th one that follows. `dayNumber` counts the days
from the start of year 1 by the usual formula, and `next` adds one to it.
-/

namespace Slopix.Lib

open Function

/-- The years with a 29th of February. -/
def LeapYear (y : Nat) : Prop := 4 ∣ y ∧ (100 ∣ y → 400 ∣ y)

instance (y : Nat) : Decidable (LeapYear y) := inferInstanceAs (Decidable (_ ∧ _))

/-- The days of a month. -/
def monthLength (y : Nat) : Nat → Nat
  | 2 => if LeapYear y then 29 else 28
  | 4 | 6 | 9 | 11 => 30
  | _ => 31

/-- The days of a year. -/
def yearLength (y : Nat) : Nat := if LeapYear y then 366 else 365

/-- A date; months and days are counted from 1. -/
structure Date where
  year : Nat
  month : Nat
  day : Nat
  deriving DecidableEq

namespace Date

/-- The dates of the calendar. -/
structure Valid (d : Date) : Prop where
  year : 1 ≤ d.year
  month : 1 ≤ d.month ∧ d.month ≤ 12
  day : 1 ≤ d.day ∧ d.day ≤ monthLength d.year d.month

/-- The day after. -/
def next (d : Date) : Date :=
  if d.day < monthLength d.year d.month then { d with day := d.day + 1 }
  else if d.month < 12 then ⟨d.year, d.month + 1, 1⟩
  else ⟨d.year + 1, 1, 1⟩

/-- How many days of year `y` are before the month behind the `m`-th. -/
def daysBefore (y m : Nat) : Nat := ∑ i ∈ Finset.range m, monthLength y (i + 1)

/-- The days since the first of January. -/
def dayOfYear (d : Date) : Nat := daysBefore d.year (d.month - 1) + (d.day - 1)

/-- The days between the start of year 1 and the start of year `y`. -/
def daysBeforeYear (y : Nat) : Nat := 365 * (y - 1) + ((y - 1) / 4 - (y - 1) / 100 + (y - 1) / 400)

/-- The days since the start of year 1. -/
def dayNumber (d : Date) : Nat := daysBeforeYear d.year + d.dayOfYear

/-- The date `n` days after the first of January of year `y`. -/
def ofYear (y n : Nat) : Date := next^[n] ⟨y, 1, 1⟩

end Date

section

variable {y m k n : Nat} {d : Date}

theorem monthLength_pos (y m : Nat) : 0 < monthLength y m := by
  unfold monthLength
  split
  · split <;> simp
  all_goals simp

theorem daysBefore_succ (y m : Nat) :
    Date.daysBefore y (m + 1) = Date.daysBefore y m + monthLength y (m + 1) :=
  Finset.sum_range_succ _ _

theorem daysBefore_twelve (y : Nat) : Date.daysBefore y 12 = yearLength y := by
  simp only [Date.daysBefore, Finset.sum_range_succ, Finset.sum_range_zero, monthLength, yearLength]
  split <;> rfl

theorem daysBeforeYear_succ (h : 1 ≤ y) :
    Date.daysBeforeYear (y + 1) = Date.daysBeforeYear y + yearLength y := by
  obtain ⟨k, rfl⟩ := Nat.exists_eq_add_of_le' h
  simp only [Date.daysBeforeYear, Nat.add_sub_cancel, yearLength, LeapYear, Nat.succ_div]
  -- a year that 400 divides is one that 100 divides, and that is one that 4 divides
  by_cases h400 : 400 ∣ k + 1
  · have h100 : 100 ∣ k + 1 := Nat.dvd_trans (by decide) h400
    have h4 : 4 ∣ k + 1 := Nat.dvd_trans (by decide) h400
    simp only [h4, h100, h400, if_true, and_self, imp_self]
    omega
  by_cases h100 : 100 ∣ k + 1
  · have h4 : 4 ∣ k + 1 := Nat.dvd_trans (by decide) h100
    simp only [h4, h100, h400, if_true, if_false, imp_false, not_true_eq_false, and_false]
    omega
  by_cases h4 : 4 ∣ k + 1
  · simp only [h4, h100, h400, if_true, if_false, false_imp_iff, and_self]
    omega
  · simp only [h4, h100, h400, if_false, false_and]
    omega

namespace Date

theorem next_iterate_day (h : n + k ≤ monthLength y m) : next^[k] ⟨y, m, n⟩ = ⟨y, m, n + k⟩ := by
  induction k with
  | zero => rfl
  | succ k ih =>
    rw [iterate_succ_apply', ih (by omega), next]
    simp only
    rw [if_pos (by omega)]
    rfl

theorem next_iterate_month (h : m < 12) : next^[monthLength y m] ⟨y, m, 1⟩ = ⟨y, m + 1, 1⟩ := by
  obtain ⟨k, hk⟩ := Nat.exists_eq_add_of_lt (monthLength_pos y m)
  have hk' : monthLength y m = k + 1 := by omega
  rw [hk', iterate_succ_apply', next_iterate_day (by omega), next]
  simp only
  rw [if_neg (by omega), if_pos h]

theorem next_iterate_december : next^[monthLength y 12] ⟨y, 12, 1⟩ = ⟨y + 1, 1, 1⟩ := by
  rw [show monthLength y 12 = 30 + 1 from rfl, iterate_succ_apply',
    next_iterate_day (by show 1 + 30 ≤ 31; decide)]
  rfl

theorem next_iterate_months (h : m < 12) : next^[daysBefore y m] ⟨y, 1, 1⟩ = ⟨y, m + 1, 1⟩ := by
  induction m with
  | zero => rfl
  | succ m ih =>
    rw [daysBefore_succ, add_comm, iterate_add_apply, ih (by omega),
      next_iterate_month h]

/-- **A year is over after its length.** -/
theorem next_iterate_year (y : Nat) : next^[yearLength y] ⟨y, 1, 1⟩ = ⟨y + 1, 1, 1⟩ := by
  rw [← daysBefore_twelve, daysBefore_succ, add_comm, iterate_add_apply, next_iterate_months (by decide)]
  exact next_iterate_december

theorem ofYear_year (h : yearLength y ≤ n) : ofYear y n = ofYear (y + 1) (n - yearLength y) := by
  obtain ⟨k, rfl⟩ := Nat.exists_eq_add_of_le' h
  rw [ofYear, iterate_add_apply, next_iterate_year, Nat.add_sub_cancel]
  rfl

theorem ofYear_month (hm : m < 12) (hlo : daysBefore y m ≤ n)
    (hhi : n < daysBefore y (m + 1)) : ofYear y n = ⟨y, m + 1, n - daysBefore y m + 1⟩ := by
  obtain ⟨k, rfl⟩ := Nat.exists_eq_add_of_le' hlo
  rw [daysBefore_succ] at hhi
  rw [ofYear, iterate_add_apply, next_iterate_months hm, next_iterate_day (by omega),
    Nat.add_sub_cancel, add_comm 1 k]

/-- The day after is a day. -/
theorem Valid.next (h : d.Valid) : d.next.Valid := by
  obtain ⟨hy, ⟨hm, hm'⟩, hd, hd'⟩ := h
  unfold Date.next
  split
  · rename_i hlt
    exact ⟨hy, ⟨hm, hm'⟩, Nat.le_add_left 1 d.day, hlt⟩
  split
  · rename_i hlt
    exact ⟨hy, ⟨Nat.le_add_left 1 d.month, hlt⟩, Nat.le_refl 1, monthLength_pos _ _⟩
  · exact ⟨Nat.le_add_left 1 d.year, ⟨Nat.le_refl 1, by simp⟩, Nat.le_refl 1, monthLength_pos _ _⟩

/-- **The day after has the next number.** -/
theorem Valid.dayNumber_next (h : d.Valid) : d.next.dayNumber = d.dayNumber + 1 := by
  obtain ⟨y, m, n⟩ := d
  obtain ⟨hy, ⟨hm, hm'⟩, hd, hd'⟩ := h
  dsimp only at hy hm hm' hd hd'
  obtain ⟨m, rfl⟩ := Nat.exists_eq_add_of_le' hm
  unfold Date.next dayNumber dayOfYear
  dsimp only
  split
  · dsimp only
    omega
  split
  · dsimp only
    rw [Nat.add_sub_cancel, Nat.add_sub_cancel, daysBefore_succ]
    omega
  -- the last day of December: the year is over
  obtain rfl : m = 11 := by omega
  have hyear : daysBefore y 11 + monthLength y 12 = yearLength y := by
    rw [← daysBefore_succ, daysBefore_twelve]
  have hfirst : daysBefore (y + 1) (1 - 1) = 0 := Finset.sum_range_zero _
  dsimp only
  rw [daysBeforeYear_succ hy, hfirst, show 11 + 1 - 1 = 11 from rfl]
  have hd'' : n ≤ monthLength y 12 := hd'
  have hlast : ¬ n < monthLength y 12 := by assumption
  omega

theorem valid_ofYear (hy : 1 ≤ y) (n : Nat) : (ofYear y n).Valid := by
  induction n with
  | zero => exact ⟨hy, ⟨le_refl 1, by simp [ofYear]⟩, le_refl 1, monthLength_pos _ _⟩
  | succ n ih =>
    rw [ofYear, iterate_succ_apply']
    exact ih.next

theorem ofYear_succ (y n : Nat) : ofYear y (n + 1) = (ofYear y n).next :=
  iterate_succ_apply' ..

/-- **The number of the date `n` days after the first of January.** -/
theorem dayNumber_ofYear (hy : 1 ≤ y) (n : Nat) : (ofYear y n).dayNumber = daysBeforeYear y + n := by
  induction n with
  | zero => simp [ofYear, dayNumber, dayOfYear, daysBefore]
  | succ n ih =>
    rw [ofYear_succ, (valid_ofYear hy n).dayNumber_next, ih]
    rfl

end Date

end

end Slopix.Lib
