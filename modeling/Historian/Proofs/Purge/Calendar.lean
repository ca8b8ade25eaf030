import Historian.Calendar
import Mathlib.Order.Monotone.Basic
import Mathlib.Order.SuccPred.LinearLocallyFinite

/-!
# Months on the calendar

The months follow one another without a gap, so every day lies in exactly one of them, and going back
by months keeps the order of days.  Different days meet only at the end of a month that is too short
for them.

* `Calendar.monthStart_lt_iff`, `Calendar.monthOf_spec` — the months, and the month of a day.
* `Calendar.monthsBefore_mono`, `Calendar.monthsBefore_eq_iff` — what going back does to two days.
-/

set_option autoImplicit false

namespace Historian.Calendar

theorem monthStart_lt_succ (month : Int) : monthStart month < monthStart (month + 1) := by
  have := (monthLength_bounds month).1
  rw [monthLength] at this
  omega

theorem monthStart_lt_iff {month other : Int} : monthStart month < monthStart other ↔ month < other :=
  (strictMono_int_of_lt_succ monthStart_lt_succ).lt_iff_lt

theorem monthStart_le_iff {month other : Int} : monthStart month ≤ monthStart other ↔ month ≤ other :=
  (strictMono_int_of_lt_succ monthStart_lt_succ).le_iff_le

/-- Four centuries have 146097 days, and no year strays far from their mean. -/
theorem daysBeforeYear_near (year : Int) :
    146097 * year - 396 ≤ 400 * daysBeforeYear year ∧
      400 * daysBeforeYear year ≤ 146097 * year + 699 := by
  unfold daysBeforeYear
  omega

theorem daysBeforeMonth_near : ∀ inYear : Nat, inYear < 12 →
    146097 * (inYear : Int) - 9000 ≤ 4800 * daysBeforeMonth inYear ∧
      4800 * daysBeforeMonth inYear ≤ 146097 * (inYear : Int) + 3000 := by
  decide

/-- Four centuries have 4800 months, and no month strays far from their mean either. -/
theorem monthStart_near (month : Int) :
    146097 * month - 14000 ≤ 4800 * (monthStart month + 719528) ∧
      4800 * (monthStart month + 719528) ≤ 146097 * month + 17000 := by
  have hyear := daysBeforeYear_near (month / 12)
  have hmonth := daysBeforeMonth_near (month % 12).toNat (by omega)
  unfold monthStart
  dsimp only
  split <;> omega

/-- A day lies between the start of its month and that of the next one. -/
theorem monthOf_spec (day : Int) :
    monthStart (monthOf day) ≤ day ∧ day < monthStart (monthOf day + 1) := by
  -- the guess by the mean length is two months off at most, in either direction
  have hlow := monthStart_near ((day + 719528) * 4800 / 146097 - 2)
  have hhigh := monthStart_near ((day + 719528) * 4800 / 146097 + 2 + 1)
  unfold monthOf
  dsimp only
  generalize hguess : (day + 719528) * 4800 / 146097 = guess at *
  have htwo : guess + 1 + 1 = guess + 2 := by omega
  have hone : guess - 1 + 1 = guess := by omega
  have hless : guess - 2 + 1 = guess - 1 := by omega
  split
  · next h => exact ⟨h, by omega⟩
  · next hnot =>
    split
    · next h => exact ⟨h, by rw [htwo]; omega⟩
    · next hnot =>
      split
      · next h => exact ⟨h, by omega⟩
      · next hnot =>
        split
        · next h => exact ⟨h, by rw [hone]; omega⟩
        · next hnot => exact ⟨by omega, by rw [hless]; omega⟩

/-- A day lies in no other month. -/
theorem monthOf_eq_iff {day month : Int} :
    monthOf day = month ↔ monthStart month ≤ day ∧ day < monthStart (month + 1) := by
  constructor
  · rintro rfl
    exact monthOf_spec day
  · rintro ⟨hstart, hend⟩
    obtain ⟨hstart', hend'⟩ := monthOf_spec day
    have hle := monthStart_lt_iff.1 (hstart.trans_lt hend')
    have hge := monthStart_lt_iff.1 (hstart'.trans_lt hend)
    omega

theorem monthOf_mono {day later : Int} (h : day ≤ later) : monthOf day ≤ monthOf later := by
  have hday := (monthOf_spec day).1
  have hlater := (monthOf_spec later).2
  exact Int.lt_add_one_iff.1 (monthStart_lt_iff.1 (hday.trans_lt (h.trans_lt hlater)))

/-- The place of a day in its month, from 1. -/
def dayOfMonth (day : Int) : Int := day - monthStart (monthOf day) + 1

theorem dayOfMonth_pos (day : Int) : 1 ≤ dayOfMonth day := by
  have := (monthOf_spec day).1
  unfold dayOfMonth
  omega

theorem dayOfMonth_eq_iff {day place : Int} :
    dayOfMonth day = place ↔ day = monthStart (monthOf day) + (place - 1) := by
  unfold dayOfMonth
  omega

theorem dayOfMonth_sub {day later : Int} (h : monthOf day = monthOf later) :
    dayOfMonth later - dayOfMonth day = later - day := by
  unfold dayOfMonth
  rw [h]
  omega

/-- The first day of the target month, and as many days more as that month has room for. -/
theorem monthsBefore_eq (day months : Int) :
    monthsBefore day months = monthStart (monthOf day - months) +
      (min (dayOfMonth day) (monthLength (monthOf day - months)) - 1) := by
  unfold monthsBefore dayOfMonth
  dsimp only
  omega

/-- Going back by months leads into the target month, however long that is. -/
theorem monthOf_monthsBefore (day months : Int) :
    monthOf (monthsBefore day months) = monthOf day - months := by
  have hpos := dayOfMonth_pos day
  have hlength := (monthLength_bounds (monthOf day - months)).1
  rw [monthOf_eq_iff, monthsBefore_eq]
  rw [monthLength] at *
  omega

/-- There it keeps the day of the month, or takes the last one. -/
theorem dayOfMonth_monthsBefore (day months : Int) :
    dayOfMonth (monthsBefore day months) =
      min (dayOfMonth day) (monthLength (monthOf day - months)) := by
  rw [dayOfMonth_eq_iff, monthOf_monthsBefore, monthsBefore_eq]

/-- Days of different months stay in different months, and days of one month keep their order as far
as the target month has room for them. -/
theorem monthsBefore_mono {day later : Int} (h : day ≤ later) (months : Int) :
    monthsBefore day months ≤ monthsBefore later months := by
  rcases (monthOf_mono h).lt_or_eq with hmonth | hmonth
  · have hbefore := (monthOf_spec (monthsBefore day months)).2
    have hafter := (monthOf_spec (monthsBefore later months)).1
    have hmonths : monthStart (monthOf day - months + 1) ≤ monthStart (monthOf later - months) :=
      monthStart_le_iff.2 (by omega)
    rw [monthOf_monthsBefore] at hbefore hafter
    exact (hbefore.trans_le (hmonths.trans hafter)).le
  · have hplace := dayOfMonth_sub hmonth
    rw [monthsBefore_eq, monthsBefore_eq, hmonth]
    omega

/-- Two days meet when both are at the end of the target month or past it. -/
theorem monthsBefore_eq_iff {day later : Int} (h : day < later) (months : Int) :
    monthsBefore day months = monthsBefore later months ↔
      monthOf day = monthOf later ∧ monthLength (monthOf day - months) ≤ dayOfMonth day := by
  constructor
  · intro hmeet
    have hmonth : monthOf day = monthOf later := by
      have := congrArg monthOf hmeet
      rw [monthOf_monthsBefore, monthOf_monthsBefore] at this
      omega
    have hplace := dayOfMonth_sub hmonth
    rw [monthsBefore_eq, monthsBefore_eq, ← hmonth] at hmeet
    exact ⟨hmonth, by omega⟩
  · rintro ⟨hmonth, hshort⟩
    have hplace := dayOfMonth_sub hmonth
    rw [monthsBefore_eq, monthsBefore_eq, ← hmonth]
    omega

end Historian.Calendar
