import Historian.Proofs.Purge.Calendar
import Historian.Proofs.Purge.PerPoint
import Historian.Proofs.Purge.Retention

/-!
# Cutoffs as time goes on

Time goes on, and the cutoff of a period goes on with it, but for one exception.  Months and years go
back on the calendar: the last days of a long month all lead to the last day of a shorter one, and
each time keeps its time of day.  So the cutoff of a morning may lie before that of the evening before.

* `Calendar.le_iff` — times are ordered by day and then by time of day.
* `Period.cutoff_eq_some_iff`, `Period.cutoff_spec` — a cutoff by its day and its time of day.
* `Period.reverses_iff`, `Period.cutoff_le_iff` — the exception, and that there is no other.
* `PurgeManager.holds_run` — what any run leaves in the store.
* `PurgeManager.later_cutoffs` — what a later run keeps that an earlier one would not have kept.
-/

set_option autoImplicit false

namespace Historian

namespace Calendar

/-- The day that a time lies in. -/
def dayOf (t : Timestamp) : Int := t.toInt / dayLength

/-- The time of day, in milliseconds. -/
def clockOf (t : Timestamp) : Int := t.toInt % dayLength

theorem clockOf_bounds (t : Timestamp) : 0 ≤ clockOf t ∧ clockOf t < dayLength := by
  unfold clockOf dayLength
  omega

theorem toInt_eq (t : Timestamp) : t.toInt = dayOf t * dayLength + clockOf t := by
  unfold dayOf clockOf dayLength
  omega

/-- Days with a date are far from where times in milliseconds end. -/
theorem hasDate_bounds {day : Int} (h : hasDate day = true) :
    -100000000 ≤ day ∧ day ≤ 100000000 := by
  have hfirst : -100000000 ≤ firstDay := by decide
  have hlast : lastDay ≤ 100000000 := by decide
  rw [hasDate, Bool.and_eq_true, decide_eq_true_eq, decide_eq_true_eq] at h
  exact ⟨hfirst.trans h.1, h.2.trans hlast⟩

theorem le_iff {t t' : Timestamp} :
    t ≤ t' ↔ dayOf t < dayOf t' ∨ dayOf t = dayOf t' ∧ clockOf t ≤ clockOf t' := by
  rw [Int64.le_iff_toInt_le]
  unfold dayOf clockOf dayLength
  omega

end Calendar

namespace Period

open Calendar

variable {p : Period} {now later c c' : Timestamp}

/-- There is a cutoff if both days have a date, and it is what the calendar says. -/
theorem cutoff_eq_some_iff :
    p.cutoff now = some c ↔ hasDate (dayOf now) = true ∧ hasDate (p.dayBefore (dayOf now)) = true ∧
      c.toInt = p.dayBefore (dayOf now) * dayLength + clockOf now := by
  have hclock := clockOf_bounds now
  have hfits (target : Int) (htarget : hasDate target = true) :
      (Int64.ofInt (target * dayLength + clockOf now)).toInt =
        target * dayLength + clockOf now := by
    have hdays := hasDate_bounds htarget
    unfold dayLength at *
    exact Int64.toInt_ofInt_of_le (by omega) (by omega)
  show (if hasDate (dayOf now) && hasDate (p.dayBefore (dayOf now)) then
    some (Int64.ofInt (p.dayBefore (dayOf now) * dayLength + clockOf now)) else none) = some c ↔ _
  rw [Option.ite_none_right_eq_some, Bool.and_eq_true, and_assoc, Option.some_inj]
  refine and_congr_right fun _ => and_congr_right fun htarget => ⟨?_, fun h => ?_⟩
  · rintro rfl
    exact hfits _ htarget
  · exact Int64.toInt_inj.1 ((hfits _ htarget).trans h.symm)

/-- A cutoff lies on the day that the period leads to, at the same time of day. -/
theorem cutoff_spec (h : p.cutoff now = some c) :
    dayOf c = p.dayBefore (dayOf now) ∧ clockOf c = clockOf now := by
  have hc := (cutoff_eq_some_iff.1 h).2.2
  have hclock := clockOf_bounds now
  rw [dayOf, clockOf, hc]
  unfold dayLength at *
  omega

/-- How many months the period goes back on the calendar, if it is one of months or years. -/
def months? (p : Period) : Option Int :=
  match p.unit with
  | .days => none
  | .weeks => none
  | .months => some p.count.toNat
  | .years => some (12 * p.count.toNat)

theorem dayBefore_of_days (h : p.months? = none) : ∃ n, ∀ day, p.dayBefore day = day - n := by
  cases hunit : p.unit with
  | days => exact ⟨p.count.toNat, fun day => by simp [dayBefore, hunit]⟩
  | weeks => exact ⟨7 * p.count.toNat, fun day => by simp [dayBefore, hunit]⟩
  | months => simp [months?, hunit] at h
  | years => simp [months?, hunit] at h

theorem dayBefore_of_months {n : Int} (h : p.months? = some n) (day : Int) :
    p.dayBefore day = monthsBefore day n := by
  cases hunit : p.unit with
  | days => simp [months?, hunit] at h
  | weeks => simp [months?, hunit] at h
  | months => simp [months?, hunit] at h; simp [dayBefore, hunit, h]
  | years => simp [months?, hunit] at h; simp [dayBefore, hunit, h]

/-- The cutoff lies so many months earlier, on the same day of the month or on the last one of a month
that is too short, and at the same time of day. -/
structure MonthsBack (months : Int) (now c : Timestamp) : Prop where
  month : monthOf (dayOf c) = monthOf (dayOf now) - months
  day : dayOfMonth (dayOf c) = min (dayOfMonth (dayOf now)) (daysInMonth (monthOf (dayOf c)))
  clock : clockOf c = clockOf now

theorem monthsBack_cutoff {n : Int} (h : p.months? = some n) (hc : p.cutoff now = some c) :
    MonthsBack n now c := by
  obtain ⟨hday, hclock⟩ := cutoff_spec hc
  rw [dayBefore_of_months h] at hday
  refine ⟨?_, ?_, hclock⟩
  · rw [hday, monthOf_monthsBefore]
  · rw [hday, dayOfMonth_monthsBefore, monthOf_monthsBefore, monthLength_eq]

/-- On days alone no period goes backwards. -/
theorem dayBefore_mono (p : Period) {day day' : Int} (h : day ≤ day') :
    p.dayBefore day ≤ p.dayBefore day' := by
  cases hmonths : p.months? with
  | none =>
    obtain ⟨n, hbefore⟩ := dayBefore_of_days hmonths
    rw [hbefore, hbefore]
    omega
  | some n =>
    rw [dayBefore_of_months hmonths, dayBefore_of_months hmonths]
    exact monthsBefore_mono h n

/-- The two times lie on different days of one month, both of which lead to the last day of a shorter
month, and the later one is at an earlier time of day. -/
structure Reverses (p : Period) (now later : Timestamp) : Prop where
  short : ∃ n, p.months? = some n ∧
    monthLength (monthOf (dayOf now) - n) ≤ dayOfMonth (dayOf now)
  month : monthOf (dayOf now) = monthOf (dayOf later)
  days : dayOf now < dayOf later
  clocks : clockOf later < clockOf now

theorem reverses_iff (h : now ≤ later) :
    p.Reverses now later ↔
      p.dayBefore (dayOf now) = p.dayBefore (dayOf later) ∧ clockOf later < clockOf now := by
  constructor
  · rintro ⟨⟨n, hmonths, hshort⟩, hmonth, hdays, hclocks⟩
    rw [dayBefore_of_months hmonths, dayBefore_of_months hmonths]
    exact ⟨(monthsBefore_eq_iff hdays n).2 ⟨hmonth, hshort⟩, hclocks⟩
  · rintro ⟨hmeet, hclocks⟩
    have hdays : dayOf now < dayOf later := by
      rw [le_iff] at h
      omega
    cases hmonths : p.months? with
    | none =>
      obtain ⟨n, hbefore⟩ := dayBefore_of_days hmonths
      rw [hbefore, hbefore] at hmeet
      omega
    | some n =>
      rw [dayBefore_of_months hmonths, dayBefore_of_months hmonths] at hmeet
      obtain ⟨hmonth, hshort⟩ := (monthsBefore_eq_iff hdays n).1 hmeet
      exact ⟨⟨n, hmonths, hshort⟩, hmonth, hdays, hclocks⟩

theorem cutoff_le_iff (h : now ≤ later) (hc : p.cutoff now = some c)
    (hc' : p.cutoff later = some c') : c ≤ c' ↔ ¬ p.Reverses now later := by
  obtain ⟨hday, hclock⟩ := cutoff_spec hc
  obtain ⟨hday', hclock'⟩ := cutoff_spec hc'
  have hdays : dayOf now ≤ dayOf later := by
    rw [le_iff] at h
    omega
  have hmono := p.dayBefore_mono hdays
  rw [reverses_iff h, le_iff, hday, hclock, hday', hclock']
  omega

/-- Even then the cutoffs lie on one day, and as far apart as the times of day. -/
theorem Reverses.cutoff (h : now ≤ later) (hreverses : p.Reverses now later)
    (hc : p.cutoff now = some c) (hc' : p.cutoff later = some c') :
    dayOf c' = dayOf c ∧ clockOf c' < clockOf c ∧
      clockOf c - clockOf c' = clockOf now - clockOf later := by
  obtain ⟨hday, hclock⟩ := cutoff_spec hc
  obtain ⟨hday', hclock'⟩ := cutoff_spec hc'
  obtain ⟨hmeet, hclocks⟩ := (reverses_iff h).1 hreverses
  rw [hday, hclock, hday', hclock']
  exact ⟨hmeet.symm, hclocks, rfl⟩

end Period

namespace PurgeManager

open Calendar

variable {ω : Type} {manager : PurgeManager} {m m' : Memory} {targets : List PurgeTarget}
  {live : List SeriesId} {now later : Timestamp} {o : ω}

/-- The series has values expire by the period: by that of one of its targets, or by the one that
the store has once the manager has handed over its own. -/
inductive GoesBy (manager : PurgeManager) (m : Memory) (targets : List PurgeTarget) :
    SeriesId → Period → Prop
  | target {s : SeriesId} {t : PurgeTarget} {p : Period} : m.purgesPoints = true → t ∈ targets →
      t.point.series = s → t.period.or manager.defaultPeriod = some p → GoesBy manager m targets s p
  | store {s : SeriesId} {default p : Period} : m.purgesPoints = false →
      m.capabilities.supports .retentionPolicy = true → manager.defaultPeriod = some default →
      manager.handedOver default m = some p → GoesBy manager m targets s p

/-- The row is older than a cutoff that its series goes by. -/
def Outlived (manager : PurgeManager) (m : Memory) (targets : List PurgeTarget) (now : Timestamp)
    (r : Row) : Prop :=
  ∃ p, GoesBy manager m targets r.series p ∧ ∃ c, p.cutoff now = some c ∧ r.time < c

/-- Values are to be deleted point by point, and the store cannot do that. -/
def Refused (manager : PurgeManager) (m : Memory) (targets : List PurgeTarget) (now : Timestamp) :
    Prop :=
  m.purgesPoints = true ∧ m.capabilities.supports .delete = false ∧
    ∃ t ∈ targets, (cutoffOf manager.defaultPeriod now t).isSome

theorem cutoffOf_eq_some {default : Option Period} {t : PurgeTarget} {c : Timestamp} :
    cutoffOf default now t = some c ↔ ∃ p, t.period.or default = some p ∧ p.cutoff now = some c := by
  rw [cutoffOf, Option.bind_eq_some_iff]

theorem outlived_iff_expired (hpoints : m.purgesPoints = true) {r : Row} :
    Outlived manager m targets now r ↔
      expired manager.defaultPeriod now targets r = true := by
  rw [expired_iff]
  constructor
  · rintro ⟨p, hby, c, hc, hlt⟩
    cases hby with
    | target _ ht hs hp => exact ⟨_, ht, hs, c, cutoffOf_eq_some.2 ⟨p, hp, hc⟩, hlt⟩
    | store hnative => simp [hpoints] at hnative
  · rintro ⟨t, ht, hs, c, hc, hlt⟩
    obtain ⟨p, hp, hcutoff⟩ := cutoffOf_eq_some.1 hc
    exact ⟨p, .target hpoints ht hs hp, c, hcutoff, hlt⟩

theorem outlived_iff_outdated {p : Period} (hnative : m.purgesPoints = false)
    (hpolicy : m.capabilities.supports .retentionPolicy = true)
    (hdefault : manager.defaultPeriod = some p) {r : Row} :
    Outlived manager m targets now r ↔ outdated (manager.handedOver p m) now r = true := by
  rw [outdated, Option.any_eq_true]
  constructor
  · rintro ⟨q, hby, c, hc, hlt⟩
    cases hby with
    | target hpoints => simp [hnative] at hpoints
    | store _ _ hdefault' hq =>
      obtain rfl := Option.some.inj (hdefault.symm.trans hdefault')
      exact ⟨c, Option.bind_eq_some_iff.2 ⟨q, hq, hc⟩, by simpa using hlt⟩
  · rintro ⟨c, hc, hlt⟩
    obtain ⟨q, hq, hcutoff⟩ := Option.bind_eq_some_iff.1 hc
    exact ⟨q, .store hnative hpolicy hdefault hq, c, hcutoff, by simpa using hlt⟩

/-- What the store holds after a run. -/
def leftBy (manager : PurgeManager) (m : Memory) (targets : List PurgeTarget) (live : List SeriesId)
    (o : ω) (now : Timestamp) : Archive :=
  (run Memory.backend (.steady targets live) now ⟨manager, m, o⟩).2.store.archive

/-- After the run what the expiry has taken out is gone, and so are orphans. -/
theorem holds_run_of_expire {manager' : PurgeManager} {report : PurgeReport} (gone : Row → Bool)
    (hidle : manager.isRunning = false)
    (hexpire : expire Memory.backend (.steady targets live) now ⟨manager.begun, m, o⟩ =
      (.ok report, ⟨manager', m', o⟩))
    (hcaps : manager'.capabilities = m'.capabilities) (hsame : m'.capabilities = m.capabilities)
    (hstored : m'.archive.stored = m.archive.stored.filter fun r => !gone r) (r : Row) :
    (leftBy manager m targets live o now).Holds r ↔
      m.archive.Holds r ∧ gone r = false ∧
        (m.capabilities.supports .deleteOrphaned = true → r.series ∈ live) := by
  obtain ⟨a, horphans, hleft⟩ := removeOrphans_eq targets live report o hcaps
  rw [leftBy, run_of_expire hidle hexpire horphans]
  show a.Holds r ↔ _
  rw [← Archive.mem_stored, ← Archive.mem_stored, hleft, hstored, List.mem_filter, List.mem_filter,
    hsame]
  cases m.capabilities.supports .deleteOrphaned <;> simp [and_assoc]

/-- Without the capability the first target with a cutoff ends the expiry, and nothing has changed. -/
theorem purgePoints_of_unsupported {capabilities : Capabilities}
    (hdelete : capabilities.supports .delete = false) (default : Option Period) (now : Timestamp)
    (report : PurgeReport) (m : Memory) :
    ∀ targets : List PurgeTarget,
      purgePoints Memory.backend capabilities default now targets report m =
        (if targets.any fun t => (cutoffOf default now t).isSome then .error (.unsupported .delete)
          else .ok report, m)
  | [] => rfl
  | t :: rest => by
    have hrequire : capabilities.require .delete = .error (.unsupported .delete) := by
      simp [Capabilities.require, hdelete]
    unfold purgePoints
    cases hcutoff : cutoffOf default now t with
    | none => simpa [hcutoff] using purgePoints_of_unsupported hdelete default now report m rest
    | some c => simp [hcutoff, hrequire]

theorem leftBy_of_refused (hidle : manager.isRunning = false)
    (hcaps : manager.capabilities = m.capabilities) (h : Refused manager m targets now) :
    leftBy manager m targets live o now = m.archive := by
  obtain ⟨hpoints, hdelete, hcutoff⟩ := h
  have hexpire := @expire_points ω now targets manager.begun _ _ _ live o hpoints
    (purgePoints_of_unsupported (hcaps ▸ hdelete) manager.defaultPeriod now .blank m targets)
  rw [List.any_eq_true.2 hcutoff, if_pos rfl] at hexpire
  rw [leftBy, run_of_error hidle hexpire]
  rfl

/-- A run that is not refused takes out what has expired, also where no target has a cutoff. -/
theorem purgePoints_of_granted (hcaps : manager.capabilities = m.capabilities)
    (hpoints : m.purgesPoints = true) (hgranted : ¬ Refused manager m targets now) :
    ∃ report a, purgePoints Memory.backend manager.capabilities manager.defaultPeriod now targets
        .blank m = (.ok report, { m with archive := a }) ∧
      a.stored = m.archive.stored.filter fun r => !expired manager.defaultPeriod now targets r := by
  cases hdelete : m.capabilities.supports .delete with
  | true =>
    obtain ⟨a, hpurge, hstored⟩ :=
      purgePoints_eq (hcaps ▸ hdelete) manager.defaultPeriod now targets .blank hdelete
    exact ⟨_, a, hpurge, hstored⟩
  | false =>
    have hnone : ∀ t ∈ targets, ¬ (cutoffOf manager.defaultPeriod now t).isSome = true :=
      fun t ht hcutoff => hgranted ⟨hpoints, hdelete, t, ht, hcutoff⟩
    refine ⟨.blank, m.archive, ?_, (List.filter_eq_self.2 fun r _ => ?_).symm⟩
    · rw [purgePoints_of_unsupported (hcaps ▸ hdelete), List.any_eq_false.2 hnone,
        if_neg Bool.false_ne_true]
    · rw [Bool.not_eq_true', Bool.eq_false_iff, Ne, expired_iff]
      rintro ⟨t, ht, -, c, hc, -⟩
      exact hnone t ht (by simp [Option.mem_def.1 hc])

/-- A store that is not asked to let values expire keeps them all. -/
theorem expire_idle (hnative : m.purgesPoints = false)
    (hidle : ¬ (manager.capabilities.supports .retentionPolicy = true ∧
      manager.defaultPeriod.isSome = true)) (now : Timestamp) :
    expire Memory.backend (.steady targets live) now ⟨manager, m, o⟩ =
      (.ok { PurgeReport.blank with pointsSkipped := true }, ⟨manager, m, o⟩) := by
  have hskips : Memory.backend.purgesPoints m = false := hnative
  cases hdefault : manager.defaultPeriod with
  | none => exact expire_native_none targets live o hnative hdefault now
  | some p =>
    have hunsupported : manager.capabilities.supports .retentionPolicy = false := by
      simpa [hdefault] using hidle
    simp only [expire, hskips, hdefault, hunsupported, Bool.false_eq_true, if_false]

/-- What a run leaves: all of it if it is refused, and otherwise what has not outlived a cutoff and
belongs to a live series, where the store can tell. -/
def Leaves (manager : PurgeManager) (m : Memory) (targets : List PurgeTarget) (live : List SeriesId)
    (now : Timestamp) (r : Row) : Prop :=
  m.archive.Holds r ∧ (¬ Refused manager m targets now → ¬ Outlived manager m targets now r ∧
    (m.capabilities.supports .deleteOrphaned = true → r.series ∈ live))

/-- What any run leaves, whichever way values expire. -/
theorem holds_run (hidle : manager.isRunning = false)
    (hcaps : manager.capabilities = m.capabilities) (now : Timestamp) (r : Row) :
    (leftBy manager m targets live o now).Holds r ↔ Leaves manager m targets live now r := by
  rw [Leaves]
  by_cases hrefused : Refused manager m targets now
  · simp [leftBy_of_refused hidle hcaps hrefused, hrefused]
  simp only [hrefused, not_false_eq_true, forall_true_left]
  cases hmode : m.purgesPoints with
  | true =>
    obtain ⟨report, a, hpurge, hstored⟩ := purgePoints_of_granted hcaps hmode hrefused
    have hexpire := @expire_points ω now targets manager.begun _ _ _ live o hmode hpurge
    rw [holds_run_of_expire _ hidle hexpire hcaps rfl hstored r, outlived_iff_expired hmode,
      Bool.not_eq_true]
  | false =>
    by_cases hasks : m.capabilities.supports .retentionPolicy = true ∧ manager.defaultPeriod.isSome
    · obtain ⟨hpolicy, hsome⟩ := hasks
      obtain ⟨p, hdefault⟩ := Option.isSome_iff_exists.1 hsome
      obtain ⟨report, a, hrun, -, hkept⟩ :=
        run_native targets live o hmode hcaps hpolicy hidle hdefault now
      rw [leftBy, hrun, hkept, outlived_iff_outdated hmode hpolicy hdefault, Bool.not_eq_true]
    · have hnone : ¬ Outlived manager m targets now r := by
        rintro ⟨p, hby, -⟩
        cases hby with
        | target hpoints => simp [hmode] at hpoints
        | store _ hpolicy hdefault => exact hasks ⟨hpolicy, by simp [hdefault]⟩
      have hexpire := @expire_idle ω manager.begun m targets live o hmode
        (fun h => hasks ⟨hcaps ▸ h.1, h.2⟩) now
      rw [holds_run_of_expire (fun _ => false) hidle hexpire hcaps rfl
        (List.filter_eq_self.2 fun _ _ => rfl).symm r]
      simp [hnone]

/-- Whether a run is refused does not depend on its time if the same periods have a cutoff. -/
theorem refused_iff (hdates : ∀ s p, GoesBy manager m targets s p →
    ((p.cutoff now).isSome ↔ (p.cutoff later).isSome)) :
    Refused manager m targets now ↔ Refused manager m targets later := by
  unfold Refused
  refine and_congr_right fun hpoints => and_congr_right fun _ => exists_congr fun t =>
    and_congr_right fun ht => ?_
  unfold cutoffOf
  cases hp : t.period.or manager.defaultPeriod with
  | none => rw [Option.bind_none, Option.bind_none]
  | some p =>
    rw [Option.bind_some, Option.bind_some]
    exact hdates _ p (.target hpoints ht rfl hp)

/-- A row that the earlier run would not have kept lies between the two cutoffs. -/
theorem Leaves.earlier (h : now ≤ later)
    (hdates : ∀ s p, GoesBy manager m targets s p →
      ((p.cutoff now).isSome ↔ (p.cutoff later).isSome)) {r : Row}
    (hkept : Leaves manager m targets live later r) :
    Leaves manager m targets live now r ∨
      ∃ p, GoesBy manager m targets r.series p ∧ p.Reverses now later ∧
        ∃ c c', p.cutoff now = some c ∧ p.cutoff later = some c' ∧ c' ≤ r.time ∧ r.time < c := by
  obtain ⟨hheld, hkept⟩ := hkept
  by_cases hrefused : Refused manager m targets now
  · exact .inl ⟨hheld, fun hgranted => absurd hrefused hgranted⟩
  obtain ⟨hyoung, horphan⟩ := hkept fun hlater => hrefused ((refused_iff hdates).2 hlater)
  by_cases hold : Outlived manager m targets now r
  · obtain ⟨p, hby, c, hc, hlt⟩ := hold
    obtain ⟨c', hc'⟩ := Option.isSome_iff_exists.1 ((hdates _ p hby).1 (by simp [hc]))
    have hle : c' ≤ r.time := Int64.not_lt.1 fun hlt' => hyoung ⟨p, hby, c', hc', hlt'⟩
    refine .inr ⟨p, hby, not_not.1 fun hforward => ?_, c, c', hc, hc', hle, hlt⟩
    have hadvance := (Period.cutoff_le_iff h hc hc').2 hforward
    exact absurd (Int64.le_trans hadvance hle) (Int64.not_le.2 hlt)
  · exact .inl ⟨hheld, fun _ => ⟨hold, horphan⟩⟩

/-- Cutoffs advance with the time, except where the end of a short month reverses two of them, and so
do the runs that go by them. -/
theorem cutoffs_advance (h : now ≤ later) :
    (∀ (p : Period) (c c' : Timestamp), p.cutoff now = some c → p.cutoff later = some c' →
      (c ≤ c' ↔ ¬ p.Reverses now later) ∧
      (p.Reverses now later → dayOf c' = dayOf c ∧ clockOf c' < clockOf c ∧
        clockOf c - clockOf c' = clockOf now - clockOf later) ∧
      ∀ n, p.months? = some n → Period.MonthsBack n now c ∧ Period.MonthsBack n later c') ∧
    ∀ (manager : PurgeManager) (m : Memory) (targets : List PurgeTarget) (live : List SeriesId)
      (o : ω), manager.capabilities = m.capabilities →
      (∀ s p, GoesBy manager m targets s p → ((p.cutoff now).isSome ↔ (p.cutoff later).isSome)) →
      ∀ r, (leftBy manager m targets live o later).Holds r →
        (leftBy manager m targets live o now).Holds r ∨
        ∃ p, GoesBy manager m targets r.series p ∧ p.Reverses now later ∧
          ∃ c c', p.cutoff now = some c ∧ p.cutoff later = some c' ∧ c' ≤ r.time ∧ r.time < c := by
  refine ⟨fun p c c' hc hc' => ?_, fun manager m targets live o hcaps hdates r hr => ?_⟩
  · exact ⟨Period.cutoff_le_iff h hc hc', fun hreverses => hreverses.cutoff h hc hc',
      fun n hn => ⟨Period.monthsBack_cutoff hn hc, Period.monthsBack_cutoff hn hc'⟩⟩
  · cases hidle : manager.isRunning with
    | true =>
      have hnothing (t : Timestamp) : leftBy manager m targets live o t = m.archive := by
        simp [leftBy, run, hidle]
      rw [hnothing] at hr ⊢
      exact .inl hr
    | false =>
      rw [holds_run hidle hcaps now r]
      exact ((holds_run hidle hcaps later r).1 hr).earlier h hdates

/-- From the evening of the 30th of March 2023 to the early morning of the 31st, with one month: both
days lead to the 28th of February. -/
theorem cutoffs_advance_end_of_march :
    let evening : Timestamp := 1680217200000
    let morning : Timestamp := 1680224400000
    let month : Period := ⟨1, .months⟩
    let m : Memory := { Memory.new with
      archive := Archive.empty.putAll
        [(1, ⟨1677585600000, .flag true, none⟩), (1, ⟨1677625200000, .flag true, none⟩)] }
    let manager := PurgeManager.new .all (some month)
    let left (t : Timestamp) : Archive := leftBy manager m [⟨⟨7, 1⟩, none⟩] [1] () t
    evening ≤ morning ∧ month.cutoff evening = some 1677625200000 ∧
      month.cutoff morning = some 1677546000000 ∧ month.Reverses evening morning ∧
      Period.MonthsBack 1 evening 1677625200000 ∧
      ∀ r, (left morning).Holds r → (left evening).Holds r ∨
        1677546000000 ≤ r.time ∧ r.time < 1677625200000 := by
  intro evening morning month m manager left
  have h : evening ≤ morning := by decide
  have hc : month.cutoff evening = some 1677625200000 := by decide +kernel
  have hc' : month.cutoff morning = some 1677546000000 := by decide +kernel
  have hby : ∀ {s p}, GoesBy manager m [⟨⟨7, 1⟩, none⟩] s p → p = month := by
    intro s p hby
    cases hby with
    | target _ ht _ hp =>
      obtain rfl := List.mem_singleton.1 ht
      exact (Option.some.inj hp).symm
    | store hnative => exact absurd hnative (by decide)
  obtain ⟨hcutoffs, hruns⟩ := @cutoffs_advance Unit _ _ h
  obtain ⟨hle, -, hmonths⟩ := hcutoffs month _ _ hc hc'
  have hreverses : month.Reverses evening morning :=
    not_not.1 fun hforward => absurd (hle.2 hforward) (by decide)
  refine ⟨h, hc, hc', hreverses, (hmonths 1 rfl).1, fun r hr => ?_⟩
  have hdates : ∀ s p, GoesBy manager m [⟨⟨7, 1⟩, none⟩] s p →
      ((p.cutoff evening).isSome ↔ (p.cutoff morning).isSome) := by
    rintro s p hp
    rw [hby hp, hc, hc']
    simp
  rcases hruns manager m [⟨⟨7, 1⟩, none⟩] [1] () rfl hdates r hr with hearlier | hbetween
  · exact .inl hearlier
  · obtain ⟨p, hp, -, c, c', hpc, hpc', hge, hlt⟩ := hbetween
    rw [hby hp] at hpc hpc'
    obtain rfl := Option.some.inj (hc.symm.trans hpc)
    obtain rfl := Option.some.inj (hc'.symm.trans hpc')
    exact .inr ⟨hge, hlt⟩

/-- There the cutoff goes backwards, and the morning's run keeps a value from noon of the 28th of
February that the evening's run would not have kept. -/
theorem cutoff_goes_backwards :
    let evening : Timestamp := 1680217200000
    let morning : Timestamp := 1680224400000
    let month : Period := ⟨1, .months⟩
    let m : Memory := { Memory.new with
      archive := Archive.empty.putAll [(1, ⟨1677585600000, .flag true, none⟩)] }
    let left (t : Timestamp) : Archive :=
      leftBy (PurgeManager.new .all (some month)) m [⟨⟨7, 1⟩, none⟩] [1] () t
    ¬ (∀ (p : Period) (now later c c' : Timestamp), now ≤ later → p.cutoff now = some c →
        p.cutoff later = some c' → c ≤ c') ∧
      evening ≤ morning ∧ month.cutoff evening = some 1677625200000 ∧
      month.cutoff morning = some 1677546000000 ∧
      ((left morning).get? 1 1677585600000).isSome ∧ (left evening).get? 1 1677585600000 = none := by
  intro evening morning month m left
  have hc : month.cutoff evening = some 1677625200000 := by decide +kernel
  have hc' : month.cutoff morning = some 1677546000000 := by decide +kernel
  refine ⟨fun hforward => ?_, by decide, hc, hc', by decide +kernel, by decide +kernel⟩
  exact absurd (hforward month evening morning _ _ (by decide) hc hc') (by decide)

end PurgeManager

end Historian
