import Historian.Proofs.Purge.Runs

/-!
# Purging point by point

Of several targets on one series the one with the latest cutoff decides, for what an earlier cutoff
would leave is not left by a later one.

* `PurgeManager.purgePoints_eq` — the targets one after the other, by induction on them.
* `PurgeManager.run_purges` — a whole run, and its report.
-/

set_option autoImplicit false

namespace Historian

instance : Std.LawfulOrderMax Timestamp where
  max_le_iff a b c := by
    rw [show max a b = if a ≤ b then b else a from rfl]
    split <;> grind
  max_eq_or a b := by
    rw [show max a b = if a ≤ b then b else a from rfl]
    split <;> simp

/-- What one filter takes out and what another takes out of the rest. -/
theorem countP_add_countP_filter {α : Type} (p q : α → Bool) (xs : List α) :
    xs.countP p + (xs.filter fun x => !p x).countP q = xs.countP fun x => p x || q x := by
  induction xs with
  | nil => rfl
  | cons x xs ih =>
    cases hp : p x <;> cases hq : q x <;> simp [hp, hq, ← ih] <;> omega

namespace PurgeManager

variable {ω : Type} {default : Option Period} {now : Timestamp}

/-- The latest of the cutoffs of the targets on a series. -/
def latestCutoff (default : Option Period) (now : Timestamp) (targets : List PurgeTarget)
    (s : SeriesId) : Option Timestamp :=
  ((targets.filter fun t => t.point.series = s).filterMap (cutoffOf default now)).max?

/-- The row is older than the latest cutoff of its series. -/
def expired (default : Option Period) (now : Timestamp) (targets : List PurgeTarget) (r : Row) :
    Bool :=
  (latestCutoff default now targets r.series).any fun c => r.time < c

/-- A row has expired if it has for one of the targets. -/
theorem expired_iff {targets : List PurgeTarget} {r : Row} :
    expired default now targets r = true ↔
      ∃ t ∈ targets, t.point.series = r.series ∧ ∃ c ∈ cutoffOf default now t, r.time < c := by
  have hmem : ∀ c, c ∈ (targets.filter fun t => t.point.series = r.series).filterMap
      (cutoffOf default now) ↔
        ∃ t ∈ targets, t.point.series = r.series ∧ c ∈ cutoffOf default now t := by
    intro c
    simp [List.mem_filterMap, and_assoc]
  rw [expired, Option.any_eq_true, latestCutoff]
  constructor
  · rintro ⟨c, hc, hlt⟩
    obtain ⟨t, ht, hs, hct⟩ := (hmem c).1 (List.max?_eq_some_iff.1 hc).1
    exact ⟨t, ht, hs, c, hct, by simpa using hlt⟩
  · rintro ⟨t, ht, hs, c, hc, hlt⟩
    have hin := (hmem c).2 ⟨t, ht, hs, hc⟩
    obtain ⟨top, htop⟩ := Option.isSome_iff_exists.1 (List.isSome_max?_of_mem hin)
    have hle := (List.max?_eq_some_iff.1 htop).2 c hin
    exact ⟨top, htop, by simpa using Std.lt_of_lt_of_le hlt hle⟩

theorem expired_cons (t : PurgeTarget) (rest : List PurgeTarget) (r : Row) :
    expired default now (t :: rest) r =
      ((t.point.series == r.series && (cutoffOf default now t).any fun c => r.time < c) ||
        expired default now rest r) := by
  rw [Bool.eq_iff_iff, Bool.or_eq_true, expired_iff, expired_iff, Bool.and_eq_true]
  simp [Option.any_eq_true]

theorem expired_nil (r : Row) : expired default now [] r = false := rfl

/-- The report after so many more points and values. -/
def addPoints (report : PurgeReport) (points values : Nat) : PurgeReport :=
  { report with
    pointsPurged := report.pointsPurged + points
    valuesDeleted := report.valuesDeleted + values }

theorem addPoints_addPoints (report : PurgeReport) (p v p' v' : Nat) :
    addPoints (addPoints report p v) p' v' = addPoints report (p + p') (v + v') := by
  simp only [addPoints, Nat.add_assoc]

/-- What one target with a cutoff takes out of the store. -/
def goneFor (t : PurgeTarget) (c : Timestamp) (r : Row) : Bool :=
  r.series == t.point.series && (⟨none, some c⟩ : Window).contains r.time

theorem expired_cons_of_cutoff {t : PurgeTarget} {c : Timestamp} (h : cutoffOf default now t = some c)
    (rest : List PurgeTarget) :
    expired default now (t :: rest) = fun r => goneFor t c r || expired default now rest r :=
  funext fun r => by
    rw [expired_cons, h, Bool.beq_comm]
    rfl

theorem expired_cons_of_no_cutoff {t : PurgeTarget} (h : cutoffOf default now t = none)
    (rest : List PurgeTarget) : expired default now (t :: rest) = expired default now rest :=
  funext fun r => by
    rw [expired_cons, h]
    simp

/-- The targets have their old values deleted one after the other. -/
theorem purgePoints_eq {capabilities : Capabilities} (hcaps : capabilities.supports .delete = true)
    (default : Option Period) (now : Timestamp) (targets : List PurgeTarget) :
    ∀ {m : Memory} (report : PurgeReport), m.capabilities.supports .delete = true →
      ∃ a, purgePoints Memory.backend capabilities default now targets report m =
          (.ok (addPoints report (targets.countP fun t => (cutoffOf default now t).isSome)
            (m.archive.stored.countP (expired default now targets))), { m with archive := a }) ∧
        a.stored = m.archive.stored.filter fun r => !expired default now targets r := by
  have hrequire : capabilities.require .delete = .ok () := by
    rw [Capabilities.require, if_pos hcaps]
  induction targets with
  | nil =>
    intro m report _
    have hnone : expired default now [] = fun _ => false := funext fun r => expired_nil r
    exact ⟨m.archive, by simp [purgePoints, hnone, addPoints],
      (List.filter_eq_self.2 fun r _ => by simp [hnone]).symm⟩
  | cons t rest ih =>
    intro m report hm
    cases hcutoff : cutoffOf default now t with
    | none =>
      obtain ⟨a, hpurge, hstored⟩ := ih report hm
      rw [expired_cons_of_no_cutoff hcutoff, List.countP_cons_of_neg (by simp [hcutoff])]
      refine ⟨a, ?_, hstored⟩
      rw [← hpurge]
      simp only [purgePoints, hcutoff]
    | some c =>
      have hdelete := Memory.delete_eq hm (fun a => a.remove t.point.series ⟨none, some c⟩)
        (goneFor t c) (Archive.stored_remove m.archive t.point.series ⟨none, some c⟩)
      -- what this target takes out is not there any more for the others to count
      obtain ⟨a, hpurge, hstored⟩ :=
        @ih { m with archive := m.archive.remove t.point.series ⟨none, some c⟩ }
          (addPoints report 1 (m.archive.stored.countP (goneFor t c))) hm
      have hleft : (m.archive.remove t.point.series ⟨none, some c⟩).stored =
          m.archive.stored.filter fun r => !goneFor t c r := Archive.stored_remove ..
      rw [expired_cons_of_cutoff hcutoff, List.countP_cons_of_pos (by simp [hcutoff])]
      refine ⟨a, ?_, ?_⟩
      · have hstep : purgePoints Memory.backend capabilities default now (t :: rest) report m =
            purgePoints Memory.backend capabilities default now rest
              (addPoints report 1 (m.archive.stored.countP (goneFor t c)))
              { m with archive := m.archive.remove t.point.series ⟨none, some c⟩ } := by
          simp only [purgePoints, hcutoff, hrequire, Memory.backend, hdelete]
          rfl
        rw [hstep, hpurge, hleft, addPoints_addPoints, countP_add_countP_filter, Nat.add_comm 1]
      · rw [hstored, hleft, List.filter_filter]
        refine List.filter_congr fun r _ => ?_
        rw [Bool.not_or, Bool.and_comm]

/-! ## A whole run -/

/-- What a run has made of a store, and what it says of that. -/
structure Purged (default : Option Period) (now : Timestamp) (targets : List PurgeTarget)
    (live : List SeriesId) (before after : Memory) (report : PurgeReport) : Prop where
  /-- What is older than the latest cutoff of its series is gone, and so are the series that belong
  to no point, if the store can delete them. -/
  kept : ∀ r, after.archive.Holds r ↔ before.archive.Holds r ∧
    (∀ c, latestCutoff default now targets r.series = some c → c ≤ r.time) ∧
    (before.capabilities.supports .deleteOrphaned = true → r.series ∈ live)
  /-- Nothing but the contents has changed: not the retention period either. -/
  others : after = { before with archive := after.archive }
  points : report.pointsPurged = targets.countP fun t => (cutoffOf default now t).isSome
  values : report.valuesDeleted = before.archive.stored.countP (expired default now targets)
  orphans : report.orphansDeleted =
    if before.capabilities.supports .deleteOrphaned then
      some (before.archive.stored.countP fun r =>
        !expired default now targets r && !live.contains r.series)
    else none
  orphansSkipped : report.orphansSkipped = !before.capabilities.supports .deleteOrphaned
  retention : report.retentionApplied = false ∧ report.pointsSkipped = false

theorem not_expired_iff {targets : List PurgeTarget} {r : Row} :
    expired default now targets r = false ↔
      ∀ c, latestCutoff default now targets r.series = some c → c ≤ r.time := by
  cases h : latestCutoff default now targets r.series with
  | none => simp [expired, h]
  | some c => simp [expired, h]

/-- What expires in a store that is purged point by point. -/
theorem expire_points {targets : List PurgeTarget} {manager : PurgeManager} {m m' : Memory}
    {result : Except BackendFailure PurgeReport} (live : List SeriesId) (o : ω)
    (hpoints : m.purgesPoints = true)
    (h : purgePoints Memory.backend manager.capabilities manager.defaultPeriod now targets .blank m =
      (result, m')) :
    expire Memory.backend (.steady targets live) now ⟨manager, m, o⟩ = (result, ⟨manager, m', o⟩) := by
  unfold expire
  rw [if_pos (show Memory.backend.purgesPoints m = true from hpoints)]
  exact congrArg (fun r => (r.1, (⟨manager, r.2, o⟩ : PurgeState Memory ω))) h

/-- A run purges a store point by point exactly as the catalog says, and reports that. -/
theorem run_purges (targets : List PurgeTarget) (live : List SeriesId) {manager : PurgeManager}
    {m : Memory} (o : ω) (hpoints : m.purgesPoints = true)
    (hdelete : m.capabilities.supports .delete = true)
    (hcaps : manager.capabilities = m.capabilities) (hidle : manager.isRunning = false)
    (now : Timestamp) :
    ∃ report m', run Memory.backend (.steady targets live) now ⟨manager, m, o⟩ =
        (.ok (some report), ⟨manager.ended, m', o⟩) ∧
      Purged manager.defaultPeriod now targets live m m' report := by
  obtain ⟨a, hpurge, hexpired⟩ :=
    purgePoints_eq (hcaps ▸ hdelete) manager.defaultPeriod now targets .blank hdelete
  have hexpire := @expire_points ω now targets manager.begun _ _ _ live o hpoints hpurge
  obtain ⟨a', horphans, hleft⟩ :=
    @removeOrphans_eq ω targets live _ manager.begun { m with archive := a } o hcaps
  refine ⟨_, { m with archive := a' }, run_of_expire hidle hexpire horphans, ?_⟩
  have hstored : ∀ r, r ∈ a'.stored ↔ r ∈ m.archive.stored ∧
      expired manager.defaultPeriod now targets r = false ∧
      (m.capabilities.supports .deleteOrphaned = true → r.series ∈ live) := by
    intro r
    rw [hleft, hexpired, List.mem_filter, List.mem_filter]
    cases m.capabilities.supports .deleteOrphaned <;> simp [and_assoc]
  refine ⟨fun r => ?_, rfl, ?_, ?_, ?_, ?_, rfl, rfl⟩
  · rw [← Archive.mem_stored, ← Archive.mem_stored, hstored, not_expired_iff]
  · simp [withOrphans, addPoints, PurgeReport.blank]
  · simp [withOrphans, addPoints, PurgeReport.blank]
  · simp [withOrphans, addPoints, PurgeReport.blank, hexpired, List.countP_filter, Bool.and_comm]
  · simp [withOrphans, addPoints, PurgeReport.blank]

/-- On day 40, with 30 days by default: series 1 has a target without a period and one with 10 days,
series 2 one with 60 days, and series 3 belongs to no point. -/
theorem run_purges_shared_series :
    let day (n : Int) : Timestamp := Int64.ofInt (n * Calendar.dayLength)
    let sample (n : Int) : Sample := ⟨day n, .flag true, none⟩
    let m : Memory := { Memory.new with
      archive := Archive.empty.putAll
        [(1, sample 5), (1, sample 20), (1, sample 30), (2, sample 5), (3, sample 39)] }
    let targets : List PurgeTarget :=
      [⟨⟨7, 1⟩, none⟩, ⟨⟨8, 1⟩, some ⟨10, .days⟩⟩, ⟨⟨9, 2⟩, some ⟨60, .days⟩⟩]
    let manager := PurgeManager.new .all (some ⟨30, .days⟩)
    (run Memory.backend (.steady targets [1, 2]) (day 40) ⟨manager, m, ()⟩).1.toOption =
        some (some ⟨false, false, 3, 2, false, some 1⟩) ∧
      ∃ report m', run Memory.backend (.steady targets [1, 2]) (day 40) ⟨manager, m, ()⟩ =
          (.ok (some report), ⟨manager.ended, m', ()⟩) ∧
        Purged (some ⟨30, .days⟩) (day 40) targets [1, 2] m m' report := by
  intro day sample m targets manager
  have hpoints : m.purgesPoints = true := rfl
  have hdelete : m.capabilities.supports .delete = true := rfl
  have hcaps : manager.capabilities = m.capabilities := rfl
  have hidle : manager.isRunning = false := rfl
  exact ⟨by decide +kernel, run_purges targets [1, 2] () hpoints hdelete hcaps hidle (day 40)⟩

end PurgeManager

end Historian
