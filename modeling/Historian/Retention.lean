import Historian.Calendar
import Historian.Sample

/-!
# Retention periods

A `Period` says how long values are kept.  `Period.cutoff` is the oldest time still kept: values
before it have expired.  Days and weeks have a fixed length; months and years go back on the
calendar and keep the time of day.
-/

set_option autoImplicit false

namespace Historian

/-- The unit of a retention period. -/
inductive PeriodUnit
  | days
  | weeks
  | months
  | years
  deriving DecidableEq

/-- The word for a unit. -/
def PeriodUnit.name : PeriodUnit → String
  | days => "days"
  | weeks => "weeks"
  | months => "months"
  | years => "years"

/-- Every unit with its word. -/
def PeriodUnit.named : List (String × PeriodUnit) :=
  [("days", days), ("weeks", weeks), ("months", months), ("years", years)]

/-- How long values are kept. -/
structure Period where
  count : UInt32
  unit : PeriodUnit
  deriving DecidableEq

namespace Period

/-- The period for a reader. -/
def display (p : Period) : String := toString p.count.toNat ++ " " ++ p.unit.name

/-- The day that lies the period before `day`. -/
def dayBefore (p : Period) (day : Int) : Int :=
  let n : Int := p.count.toNat
  match p.unit with
  | .days => day - n
  | .weeks => day - 7 * n
  | .months => Calendar.monthsBefore day n
  | .years => Calendar.monthsBefore day (12 * n)

/-- The oldest time still kept at `now`, if both times have a date. -/
def cutoff (p : Period) (now : Timestamp) : Option Timestamp :=
  let day := now.toInt / Calendar.dayLength
  let timeOfDay := now.toInt % Calendar.dayLength
  let target := p.dayBefore day
  if Calendar.hasDate day && Calendar.hasDate target then
    some (Int64.ofInt (target * Calendar.dayLength + timeOfDay))
  else none

end Period

end Historian
