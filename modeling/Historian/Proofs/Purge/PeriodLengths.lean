import Historian.Proofs.Purge.Cutoffs

/-!
# Longer periods

At any one time a longer period of the same unit has an earlier cutoff, until the calendar ends.

* `Calendar.monthsBefore_lt`, `Calendar.monthsBefore_zero` — more months lead to an earlier day, none
  to the same.
* `Period.dayBefore_lt` — so it is in every unit.
* `Period.checkedCutoff`, `Period.checkedCutoff_eq` — the cutoff with every number in a word of the
  machine, and that no word is too short for it.
* `Period.ranks` — how the cutoffs of all periods lie at a time.
-/

set_option autoImplicit false

namespace Historian

namespace Calendar

/-- More months lead into an earlier month, whatever the lengths of the two. -/
theorem monthsBefore_lt (day : Int) {months more : Int} (h : months < more) :
    monthsBefore day more < monthsBefore day months := by
  by_contra hnot
  have hmonths := monthOf_mono (Int.not_lt.1 hnot)
  rw [monthOf_monthsBefore, monthOf_monthsBefore] at hmonths
  omega

theorem monthStart_le_day_iff {month day : Int} : monthStart month ≤ day ↔ month ≤ monthOf day := by
  obtain ⟨hstart, hend⟩ := monthOf_spec day
  constructor
  · intro h
    have := monthStart_lt_iff.1 (h.trans_lt hend)
    omega
  · exact fun h => (monthStart_le_iff.2 h).trans hstart

/-- The months whose days have a date. -/
theorem hasDate_iff {day : Int} :
    hasDate day = true ↔ -262143 * 12 ≤ monthOf day ∧ monthOf day < 262143 * 12 := by
  have hend : day ≤ lastDay ↔ ¬ monthStart (262143 * 12) ≤ day := by
    unfold lastDay
    omega
  rw [hasDate, Bool.and_eq_true, decide_eq_true_eq, decide_eq_true_eq, hend, firstDay,
    monthStart_le_day_iff, monthStart_le_day_iff]
  omega

/-- Days between two that have a date have one. -/
theorem hasDate_of_between {first day last : Int} (hfirst : hasDate first = true)
    (hlast : hasDate last = true) (h : first ≤ day) (h' : day ≤ last) : hasDate day = true := by
  simp only [hasDate, Bool.and_eq_true, decide_eq_true_eq] at *
  exact ⟨hfirst.1.trans h, h'.trans hlast.2⟩

theorem monthsBefore_zero (day : Int) : monthsBefore day 0 = day := by
  obtain ⟨hstart, hend⟩ := monthOf_spec day
  rw [monthsBefore_eq, Int.sub_zero, dayOfMonth, monthLength]
  omega

end Calendar

namespace Period

open Calendar

variable {p : Period} {now c : Timestamp}

/-! ## By the number of units -/

theorem dayBefore_lt (unit : PeriodUnit) {a b : UInt32} (h : a < b) (day : Int) :
    (⟨b, unit⟩ : Period).dayBefore day < (⟨a, unit⟩ : Period).dayBefore day := by
  have hcount : (a.toNat : Int) < b.toNat := Int.ofNat_lt.2 (UInt32.lt_iff_toNat_lt.1 h)
  cases unit with
  | days =>
    simp only [dayBefore]
    omega
  | weeks =>
    simp only [dayBefore]
    omega
  | months => exact monthsBefore_lt day hcount
  | years => exact monthsBefore_lt day (Int.mul_lt_mul_of_pos_left hcount (by decide))

theorem dayBefore_zero (unit : PeriodUnit) (day : Int) :
    (⟨0, unit⟩ : Period).dayBefore day = day := by
  cases unit with
  | days => simp [dayBefore]
  | weeks => simp [dayBefore]
  | months => exact monthsBefore_zero day
  | years => exact monthsBefore_zero day

theorem dayBefore_le (p : Period) (day : Int) : p.dayBefore day ≤ day := by
  obtain ⟨count, unit⟩ := p
  by_cases hcount : count = 0
  · rw [hcount, dayBefore_zero]
  · have hless := dayBefore_lt unit (UInt32.pos_iff_ne_zero.2 hcount) day
    rw [dayBefore_zero] at hless
    exact hless.le

theorem exists_cutoff_iff :
    (∃ c, p.cutoff now = some c) ↔
      hasDate (dayOf now) = true ∧ hasDate (p.dayBefore (dayOf now)) = true := by
  rw [← Option.isSome_iff_exists, ← Bool.and_eq_true]
  show (if hasDate (dayOf now) && hasDate (p.dayBefore (dayOf now)) then _ else none).isSome ↔ _
  split <;> simp [*]

/-- The cutoff of a longer period is earlier; and a shorter period has a cutoff if a longer one has. -/
theorem cutoff_lt {unit : PeriodUnit} {a b : UInt32} (h : a < b)
    (hc : (⟨b, unit⟩ : Period).cutoff now = some c) :
    ∃ c', (⟨a, unit⟩ : Period).cutoff now = some c' ∧ c < c' := by
  obtain ⟨hnow, htarget, hexact⟩ := cutoff_eq_some_iff.1 hc
  have hless := dayBefore_lt unit h (dayOf now)
  have hdate := hasDate_of_between htarget hnow hless.le (dayBefore_le ⟨a, unit⟩ (dayOf now))
  obtain ⟨c', hc'⟩ := exists_cutoff_iff.2 ⟨hnow, hdate⟩
  refine ⟨c', hc', Int64.lt_iff_toInt_lt.2 ?_⟩
  rw [hexact, (cutoff_eq_some_iff.1 hc').2.2, dayLength]
  omega

/-- No cutoff lies ahead, and only that of no time at all is now. -/
theorem cutoff_le_now (hc : p.cutoff now = some c) : c ≤ now ∧ (c = now ↔ p.count = 0) := by
  obtain ⟨count, unit⟩ := p
  have hexact := (cutoff_eq_some_iff.1 hc).2.2
  have hnow := toInt_eq now
  by_cases hcount : count = 0
  · subst hcount
    rw [dayBefore_zero, ← hnow] at hexact
    obtain rfl := Int64.toInt_inj.1 hexact
    exact ⟨Int64.le_refl _, iff_of_true rfl rfl⟩
  · have hless := dayBefore_lt unit (UInt32.pos_iff_ne_zero.2 hcount) (dayOf now)
    rw [dayBefore_zero] at hless
    have hearlier : c < now := by
      rw [Int64.lt_iff_toInt_lt, hexact, hnow, dayLength]
      omega
    exact ⟨Int64.le_of_lt hearlier, iff_of_false (Int64.ne_of_lt hearlier) hcount⟩

/-! ## Between units -/

/-- Periods that lead from every day to the same day have the same cutoff. -/
theorem cutoff_congr {q : Period} (h : ∀ day, p.dayBefore day = q.dayBefore day) :
    p.cutoff now = q.cutoff now := by
  rw [cutoff, cutoff, h]

theorem cutoff_weeks {n m : UInt32} (h : m.toNat = 7 * n.toNat) :
    (⟨n, .weeks⟩ : Period).cutoff now = (⟨m, .days⟩ : Period).cutoff now := by
  refine cutoff_congr fun day => ?_
  simp only [dayBefore]
  omega

theorem cutoff_years {n m : UInt32} (h : m.toNat = 12 * n.toNat) :
    (⟨n, .years⟩ : Period).cutoff now = (⟨m, .months⟩ : Period).cutoff now := by
  refine cutoff_congr fun day => ?_
  simp only [dayBefore]
  congr 1
  omega

/-! ## In words of the machine -/

/-- A number of milliseconds, if 64 bits hold it. -/
def word? (n : Int) : Option Int64 :=
  if Int64.minValue.toInt ≤ n ∧ n ≤ Int64.maxValue.toInt then some (Int64.ofInt n) else none

/-- The time of a day, if it has a date. -/
def timeOn (day clock : Int) : Option Timestamp :=
  if hasDate day then word? (day * dayLength + clock) else none

/-- The time that lies a span before `now`. -/
def spanBefore (now : Timestamp) (span : Int64) : Option Timestamp :=
  timeOn ((now.toInt - span.toInt) / dayLength) ((now.toInt - span.toInt) % dayLength)

/-- The cutoff, where every number has to fit its word: the span of days and weeks and the result are
milliseconds in 64 bits, and the months of some years are a number in 32 bits. -/
def checkedCutoff (p : Period) (now : Timestamp) : Option Timestamp :=
  if hasDate (dayOf now) then
    match p.unit with
    | .days => (word? (p.count.toNat * dayLength)).bind (spanBefore now)
    | .weeks => (word? (7 * p.count.toNat * dayLength)).bind (spanBefore now)
    | .months => timeOn (monthsBefore (dayOf now) p.count.toNat) (clockOf now)
    | .years =>
      if 12 * p.count.toNat < 2 ^ 32 then
        timeOn (monthsBefore (dayOf now) (12 * p.count).toNat) (clockOf now)
      else none
  else none

theorem word?_eq {n : Int} (h : Int64.minValue.toInt ≤ n) (h' : n ≤ Int64.maxValue.toInt) :
    word? n = some (Int64.ofInt n) := if_pos ⟨h, h'⟩

/-- Times on days with a date fit a word. -/
theorem timeOn_eq {day clock : Int} (h : 0 ≤ clock) (h' : clock < dayLength) :
    timeOn day clock = if hasDate day then some (Int64.ofInt (day * dayLength + clock)) else none := by
  rw [timeOn]
  split
  · next hdate =>
    have hdays := hasDate_bounds hdate
    unfold dayLength at *
    exact word?_eq (by rw [Int64.toInt_minValue]; omega) (by rw [Int64.toInt_maxValue]; omega)
  · rfl

theorem cutoff_eq_timeOn (p : Period) (now : Timestamp) :
    p.cutoff now =
      if hasDate (dayOf now) then timeOn (p.dayBefore (dayOf now)) (clockOf now) else none := by
  obtain ⟨hclock, hclock'⟩ := clockOf_bounds now
  rw [timeOn_eq hclock hclock']
  show (if hasDate (dayOf now) && hasDate (p.dayBefore (dayOf now)) then
    some (Int64.ofInt (p.dayBefore (dayOf now) * dayLength + clockOf now)) else none) = _
  cases hasDate (dayOf now) <;> rfl

/-- No number of weeks is too long a span, and a span of whole days leaves the time of day alone. -/
theorem spanBefore_eq {days : Int} (h : 0 ≤ days) (h' : days ≤ 7 * (2 ^ 32 - 1)) :
    (word? (days * dayLength)).bind (spanBefore now) = timeOn (dayOf now - days) (clockOf now) := by
  have hspan : Int64.minValue.toInt ≤ days * dayLength ∧ days * dayLength ≤ Int64.maxValue.toInt := by
    rw [Int64.toInt_minValue, Int64.toInt_maxValue, dayLength]
    omega
  rw [word?_eq hspan.1 hspan.2, Option.bind_some, spanBefore,
    Int64.toInt_ofInt_of_le hspan.1 (Int.lt_add_one_iff.2 hspan.2)]
  have hday : (now.toInt - days * dayLength) / dayLength = dayOf now - days := by
    unfold dayOf dayLength
    omega
  have hclock : (now.toInt - days * dayLength) % dayLength = clockOf now := by
    unfold clockOf dayLength
    omega
  rw [hday, hclock]

/-- So many years that their months do not fit a word lead out of the calendar. -/
theorem timeOn_of_many_years {n : Nat} (hnow : hasDate (dayOf now) = true) (h : 2 ^ 32 ≤ 12 * n) :
    timeOn (monthsBefore (dayOf now) (12 * n)) (clockOf now) = none := by
  have hout : ¬ hasDate (monthsBefore (dayOf now) (12 * n)) = true := by
    rw [hasDate_iff, monthOf_monthsBefore]
    have := (hasDate_iff.1 hnow).2
    omega
  rw [timeOn, if_neg hout]

/-- No word is too short for the cutoff. -/
theorem checkedCutoff_eq (p : Period) (now : Timestamp) : p.checkedCutoff now = p.cutoff now := by
  rw [cutoff_eq_timeOn, checkedCutoff]
  split
  · next hnow =>
    have hcount := p.count.toNat_lt
    obtain ⟨count, unit⟩ := p
    cases unit with
    | days => exact spanBefore_eq (by omega) (by omega)
    | weeks => exact spanBefore_eq (by omega) (by omega)
    | months => rfl
    | years =>
      simp only [dayBefore]
      split
      · next hfits =>
        have htwelve : (12 : UInt32).toNat = 12 := rfl
        rw [UInt32.toNat_mul, htwelve, Nat.mod_eq_of_lt hfits]
        rfl
      · next hlong => exact (timeOn_of_many_years hnow (Nat.not_lt.1 hlong)).symm
  · rfl

/-! ## At any time -/

/-- How the cutoffs of all periods lie at one time. -/
structure Ranks (now : Timestamp) : Prop where
  /-- A longer period of the same unit keeps more, as long as there are dates for that. -/
  longer : ∀ (unit : PeriodUnit) (a b : UInt32) (c : Timestamp), a < b →
    (⟨b, unit⟩ : Period).cutoff now = some c →
      ∃ c', (⟨a, unit⟩ : Period).cutoff now = some c' ∧ c < c'
  /-- No cutoff lies ahead, and only a period of nothing has it now. -/
  not_ahead : ∀ (p : Period) (c : Timestamp), p.cutoff now = some c →
    c ≤ now ∧ (c = now ↔ p.count = 0)
  weeks : ∀ n m : UInt32, m.toNat = 7 * n.toNat →
    (⟨n, .weeks⟩ : Period).cutoff now = (⟨m, .days⟩ : Period).cutoff now
  years : ∀ n m : UInt32, m.toNat = 12 * n.toNat →
    (⟨n, .years⟩ : Period).cutoff now = (⟨m, .months⟩ : Period).cutoff now
  /-- There is a cutoff just if both days have a date, and then it is what the calendar says, -/
  exact_cutoff : ∀ (p : Period) (c : Timestamp), p.cutoff now = some c ↔
    hasDate (dayOf now) = true ∧ hasDate (p.dayBefore (dayOf now)) = true ∧
      c.toInt = p.dayBefore (dayOf now) * dayLength + clockOf now
  /-- also if every number on the way has to fit a word of the machine. -/
  checked : ∀ p : Period, p.checkedCutoff now = p.cutoff now

/-- At every time keeping longer means an earlier cutoff, the units agree, and no number is too
large. -/
theorem ranks (now : Timestamp) : Ranks now where
  longer _ _ _ _ := cutoff_lt
  not_ahead _ _ := cutoff_le_now
  weeks _ _ := cutoff_weeks
  years _ _ := cutoff_years
  exact_cutoff _ _ := cutoff_eq_some_iff
  checked p := checkedCutoff_eq p now

end Period

end Historian
