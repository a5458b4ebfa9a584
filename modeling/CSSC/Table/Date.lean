import CSSC.Lines.Text
import Mathlib.Algebra.BigOperators.Group.List.Basic
import Mathlib.Data.Int.Order.Basic

/-!
# Dates

A date has six fields, which are also those of a date that is not valid. The class keeps the day of the year beside
the fields it is computed from, and the comparison goes by the year and that day. The operators assert that both dates
are valid.
-/

namespace CSSC.Table

open CSSC.Lines

/-- `is_leapyear`. -/
def isLeapyear (year : ℤ) : Bool :=
  if year % 4 ≠ 0 then false
  else if year % 100 ≠ 0 then true
  else if year % 400 ≠ 0 then false
  else true

/-- `days_in_month`; -1 for what is no month. -/
def daysInMonth (mon year : ℤ) : ℤ :=
  if mon ∈ [1, 3, 5, 7, 8, 10, 12] then 31
  else if mon ∈ [4, 6, 9, 11] then 30
  else if mon = 2 then (if isLeapyear year then 29 else 28)
  else -1

/-- `sccs_date`. -/
structure SccsDate where
  /-- `year_`. -/
  year : ℤ
  /-- `month_`. -/
  month : ℤ
  /-- `month_day_`. -/
  monthDay : ℤ
  /-- `hour_`. -/
  hour : ℤ
  /-- `minute_`. -/
  minute : ℤ
  /-- `second_`. -/
  second : ℤ
  deriving DecidableEq, Repr

namespace SccsDate

/-- `sccs_date()`. -/
def none : SccsDate := ⟨-1, -1, -1, -1, -1, -1⟩

/-- `yearday_`, by the two loops of `update_yearday`. -/
def yearday (d : SccsDate) : ℤ :=
  1 + ((List.range' 1 (d.month - 1).toNat).map fun m => daysInMonth m d.year).sum + (d.monthDay - 1).toNat

/-- `valid()`. -/
def valid (d : SccsDate) : Bool :=
  0 ≤ d.year && (0 < d.month && d.month < 13) && (0 < d.monthDay && d.monthDay ≤ daysInMonth d.month d.year) &&
    (0 ≤ d.hour && d.hour < 24) && (0 ≤ d.minute && d.minute < 60) && (0 ≤ d.second && d.second ≤ 61)

/-- `compare`, for valid dates. -/
def compare (d e : SccsDate) : ℤ :=
  if d.year - e.year ≠ 0 then d.year - e.year
  else if d.yearday - e.yearday ≠ 0 then d.yearday - e.yearday
  else if d.hour - e.hour ≠ 0 then d.hour - e.hour
  else if d.minute - e.minute ≠ 0 then d.minute - e.minute
  else d.second - e.second

/-- `operator >`. -/
def greater (d e : SccsDate) : Except Quit Bool :=
  if d.valid && e.valid then .ok (0 < d.compare e) else .error .assertion

/-- Valid dates are compared. -/
theorem greater_ok {d e : SccsDate} (hd : d.valid = true) (he : e.valid = true) :
    d.greater e = .ok (decide (0 < d.compare e)) := by
  rw [greater, hd, he, if_pos (by rfl)]

end SccsDate

end CSSC.Table
