import Mathlib

/-!
# The civil calendar

Dates and times of day in the Gregorian calendar from 1970 on, and the number of seconds since the
beginning of that year. A `Civil` is a date that exists. Both the year and the month of a date are
found from a number of days by taking off the lengths of whole periods; `sum_add_unique` says that
there is only one way to do that.
-/

open Finset

namespace Calendar

/-- The lengths of the first `a` periods and a part of the next one. -/
theorem sum_add_unique {f : ℕ → ℕ} {a b r s : ℕ}
    (h : ∑ i ∈ range a, f i + r = ∑ i ∈ range b, f i + s) (hr : r < f a) (hs : s < f b) :
    a = b ∧ r = s := by
  have hle : ∀ {a b r s : ℕ},
      ∑ i ∈ range a, f i + r = ∑ i ∈ range b, f i + s → r < f a → ¬a < b := by
    intro a b r s h hr hlt
    have hsum : ∑ i ∈ range (a + 1), f i ≤ ∑ i ∈ range b, f i :=
      sum_le_sum_of_subset (range_subset_range.mpr hlt)
    rw [sum_range_succ] at hsum
    omega
  obtain rfl : a = b := le_antisymm (not_lt.mp (hle h.symm hs)) (not_lt.mp (hle h hr))
  exact ⟨rfl, Nat.add_left_cancel h⟩

/-- The leap years of the Gregorian calendar. -/
def IsLeap (y : ℕ) : Prop := 4 ∣ y ∧ (100 ∣ y → 400 ∣ y)

instance : DecidablePred IsLeap := fun y =>
  inferInstanceAs (Decidable (4 ∣ y ∧ (100 ∣ y → 400 ∣ y)))

/-- The number of days of a year. -/
def yearLength (y : ℕ) : ℕ := if IsLeap y then 366 else 365

/-- The number of days of a month; January is month 0. -/
def monthLength (y m : ℕ) : ℕ :=
  if m = 1 then if IsLeap y then 29 else 28 else if m ∈ [3, 5, 8, 10] then 30 else 31

/-- The days of the year before the month begins. -/
def daysBeforeMonth (y m : ℕ) : ℕ := ∑ i ∈ range m, monthLength y i

/-- The days from the beginning of 1970 to that of the year. -/
def daysBeforeYear (y : ℕ) : ℕ := ∑ i ∈ range (y - 1970), yearLength (1970 + i)

theorem yearLength_ge (y : ℕ) : 365 ≤ yearLength y := by
  unfold yearLength
  split_ifs <;> omega

/-- The months make up the year. -/
theorem daysBeforeMonth_year (y : ℕ) : daysBeforeMonth y 12 = yearLength y := by
  unfold daysBeforeMonth yearLength
  by_cases h : IsLeap y <;> simp [sum_range_succ, monthLength, h]

/-- A year has at least 365 days. -/
theorem le_daysBeforeYear (a : ℕ) : 365 * a ≤ daysBeforeYear (1970 + a) := by
  unfold daysBeforeYear
  rw [Nat.add_sub_cancel_left]
  have h := sum_le_sum fun i (_ : i ∈ range a) => yearLength_ge (1970 + i)
  rw [sum_const, card_range, smul_eq_mul] at h
  omega

/-- A second of the calendar. -/
@[ext]
structure Civil where
  year : ℕ
  month : ℕ
  day : ℕ
  hour : ℕ
  min : ℕ
  sec : ℕ
  year_ge : 1970 ≤ year
  month_lt : month < 12
  day_pos : 1 ≤ day
  day_le : day ≤ monthLength year month
  hour_lt : hour < 24
  min_lt : min < 60
  sec_lt : sec < 60

namespace Civil

variable (c : Civil)

/-- The day of the year, from 0 on. -/
def dayOfYear : ℕ := daysBeforeMonth c.year c.month + (c.day - 1)

/-- The days since 1970-01-01. -/
def days : ℕ := daysBeforeYear c.year + c.dayOfYear

/-- The day of the week, with 0 for Sunday; 1970-01-01 was a Thursday. -/
def weekday : ℕ := (c.days + 4) % 7

/-- The seconds since 1970-01-01 00:00:00. -/
def seconds : ℕ := c.days * 86400 + (c.hour * 3600 + c.min * 60 + c.sec)

theorem dayOfYear_lt : c.dayOfYear < yearLength c.year := by
  have hmonths : daysBeforeMonth c.year (c.month + 1) ≤ daysBeforeMonth c.year 12 :=
    sum_le_sum_of_subset (range_subset_range.mpr c.month_lt)
  unfold daysBeforeMonth at hmonths
  rw [sum_range_succ] at hmonths
  have hday := c.day_le
  have hpos := c.day_pos
  rw [← daysBeforeMonth_year]
  unfold dayOfYear daysBeforeMonth
  omega

/-- No two dates are the same number of seconds after 1970-01-01. -/
theorem seconds_injective : Function.Injective seconds := by
  intro c d h
  have hc := c.sec_lt
  have hd := d.sec_lt
  have hc' := c.min_lt
  have hd' := d.min_lt
  have hc'' := c.hour_lt
  have hd'' := d.hour_lt
  unfold seconds at h
  -- the time of day is less than a day, so the days agree
  have hdays : c.days = d.days := by omega
  -- the day of the year is less than a year
  have hyear : c.year - 1970 = d.year - 1970 ∧ c.dayOfYear = d.dayOfYear := by
    apply sum_add_unique hdays
    · rw [Nat.add_sub_cancel' c.year_ge]
      exact c.dayOfYear_lt
    · rw [Nat.add_sub_cancel' d.year_ge]
      exact d.dayOfYear_lt
  have hcy := c.year_ge
  have hdy := d.year_ge
  have hy : c.year = d.year := by omega
  have hcd := c.day_pos
  have hdd := d.day_pos
  -- the day of the month is less than a month
  have hmonth : c.month = d.month ∧ c.day - 1 = d.day - 1 := by
    have hsum := hyear.2
    unfold dayOfYear daysBeforeMonth at hsum
    rw [hy] at hsum
    apply sum_add_unique hsum
    · rw [← hy]
      have := c.day_le
      omega
    · have := d.day_le
      omega
  ext <;> omega

end Civil

end Calendar
