/-!
# The Gregorian calendar by months

Months are numbered from January of year 0, days from the first of January 1970, in both directions
and by the rules of today's calendar throughout.

* `Calendar.monthStart` is the number of the first day of a month.
* `Calendar.monthOf` is the month that a day lies in.
* `Calendar.monthsBefore` goes back by months and keeps the day of the month, or takes the last day
  of a month that is too short.
* `Calendar.monthLength_eq` has the days that each month has by its name.
-/

set_option autoImplicit false

namespace Historian.Calendar

/-- Whether February has twenty-nine days. -/
def isLeap (year : Int) : Bool := year % 4 = 0 && (year % 100 ≠ 0 || year % 400 = 0)

/-- The number of days from the start of year 0 to the start of `year`. -/
def daysBeforeYear (year : Int) : Int :=
  365 * year + (year + 3) / 4 - (year + 99) / 100 + (year + 399) / 400

/-- The number of days before a month (counted from 0) in a year that is not a leap year. -/
def daysBeforeMonth : Nat → Int
  | 0 => 0
  | 1 => 31
  | 2 => 59
  | 3 => 90
  | 4 => 120
  | 5 => 151
  | 6 => 181
  | 7 => 212
  | 8 => 243
  | 9 => 273
  | 10 => 304
  | _ => 334

/-- The first day of a month. -/
def monthStart (month : Int) : Int :=
  let year := month / 12
  let inYear := (month % 12).toNat
  let leapDay : Int := if 2 ≤ inYear ∧ isLeap year = true then 1 else 0
  daysBeforeYear year + daysBeforeMonth inYear + leapDay - 719528

/-- The number of days of a month. -/
def monthLength (month : Int) : Int := monthStart (month + 1) - monthStart month

/-- The month of a day.  The mean length of a month leads to within two months of it. -/
def monthOf (day : Int) : Int :=
  let guess := (day + 719528) * 4800 / 146097
  if monthStart (guess + 2) ≤ day then guess + 2
  else if monthStart (guess + 1) ≤ day then guess + 1
  else if monthStart guess ≤ day then guess
  else if monthStart (guess - 1) ≤ day then guess - 1
  else guess - 2

/-- The day `months` earlier, with the same place in its month or else the last one. -/
def monthsBefore (day months : Int) : Int :=
  let month := monthOf day
  let target := month - months
  monthStart target + min (day - monthStart month) (monthLength target - 1)

/-- The first day that dates are given to. -/
def firstDay : Int := monthStart (-262143 * 12)

/-- The last day that dates are given to. -/
def lastDay : Int := monthStart (262143 * 12) - 1

/-- Whether a day has a date. -/
def hasDate (day : Int) : Bool := firstDay ≤ day && day ≤ lastDay

/-- The milliseconds of a day. -/
def dayLength : Int := 86400000

example : monthStart (1970 * 12) = 0 := by decide
example : monthsBefore 19813 1 = 19782 := by decide

/-- The days of a month by its name: thirty or thirty-one, and fewer in February. -/
def daysInMonth (month : Int) : Int :=
  match (month % 12).toNat with
  | 1 => if isLeap (month / 12) then 29 else 28
  | 3 | 5 | 8 | 10 => 30
  | _ => 31

theorem monthLength_eq (month : Int) : monthLength month = daysInMonth month := by
  have hyear : (month + 1) / 12 = month / 12 + if month % 12 = 11 then 1 else 0 := by split <;> omega
  have hnext : (month + 1) % 12 = if month % 12 = 11 then 0 else month % 12 + 1 := by split <;> omega
  have hcases : month % 12 = 0 ∨ month % 12 = 1 ∨ month % 12 = 2 ∨ month % 12 = 3 ∨
      month % 12 = 4 ∨ month % 12 = 5 ∨ month % 12 = 6 ∨ month % 12 = 7 ∨ month % 12 = 8 ∨
      month % 12 = 9 ∨ month % 12 = 10 ∨ month % 12 = 11 := by omega
  unfold monthLength monthStart daysInMonth
  rw [hyear, hnext]
  generalize month / 12 = year
  rcases hcases with h | h | h | h | h | h | h | h | h | h | h | h <;> rw [h] <;>
    by_cases hleap : isLeap year = true <;> simp [daysBeforeMonth, daysBeforeYear, hleap] <;>
    simp [isLeap] at hleap <;> omega

/-- Months have from 28 to 31 days. -/
theorem monthLength_bounds (month : Int) : 28 ≤ monthLength month ∧ monthLength month ≤ 31 := by
  rw [monthLength_eq, daysInMonth]
  split
  · split <;> omega
  all_goals omega

end Historian.Calendar
