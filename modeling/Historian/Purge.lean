import Historian.Backend

/-!
# Purging

A purge run expires old values and then removes what belongs to no point any more.  Values expire
point by point, each by its own period or the default one; a backend that opts out of this is handed
the default period instead and expires values itself.

A run reads the points from a `Catalog`, which is outside the manager and may do as it pleases when
it is asked, even ask the same manager for another run.  `PurgeManager.run` therefore works on a
`PurgeState` that a catalog can see and change.  A run asked for while another is under way does
nothing.
-/

set_option autoImplicit false

namespace Historian

/-- A point to purge, with its own period if it has one. -/
structure PurgeTarget where
  point : Point
  period : Option Period
  deriving DecidableEq

/-- What a run has done.  A point is counted as purged once its old values were asked to be deleted;
points are skipped if the backend has opted out of expiry point by point, and orphans if it cannot
delete them.  Values and orphans count as far as the backend counts them. -/
structure PurgeReport where
  retentionApplied : Bool
  pointsSkipped : Bool
  pointsPurged : Nat
  valuesDeleted : Nat
  orphansSkipped : Bool
  orphansDeleted : Option Nat
  deriving DecidableEq

/-- The report of a run that has done nothing yet. -/
def PurgeReport.blank : PurgeReport := ⟨false, false, 0, 0, false, none⟩

/-- What is kept between runs: what the backend declared when the manager was made, the period of
points without one of their own, the period last handed to the backend, whether a run is under way,
and how many have ended with a report. -/
structure PurgeManager where
  capabilities : Capabilities
  defaultPeriod : Option Period
  applied : Option Period
  isRunning : Bool
  runs : Nat

/-- A manager that has done nothing. -/
def PurgeManager.new (capabilities : Capabilities) (defaultPeriod : Option Period) : PurgeManager :=
  ⟨capabilities, defaultPeriod, none, false, 0⟩

/-- Where points are looked up.  `τ` is whatever the catalog may see and change. -/
structure Catalog (τ : Type) where
  targets : StateM τ (List PurgeTarget)
  /-- The series that still belong to a point. -/
  live : StateM τ (List SeriesId)

/-- A catalog of a fixed list of targets. -/
def Catalog.fixed {τ : Type} (targets : List PurgeTarget) : Catalog τ where
  targets := pure targets
  live := pure (targets.map fun t => t.point.series)

/-- What a run works on: the manager, the store, and whatever else the catalog uses. -/
structure PurgeState (σ ω : Type) where
  manager : PurgeManager
  store : σ
  outside : ω

namespace PurgeManager

variable {σ ω : Type}

/-- The time before which a target's values have expired, if it has a period and that has a date. -/
def cutoffOf (default : Option Period) (now : Timestamp) (t : PurgeTarget) : Option Timestamp :=
  (t.period.or default).bind fun p => p.cutoff now

/-- Deletes the old values of each target in turn. -/
def purgePoints (b : Backend σ) (capabilities : Capabilities) (default : Option Period)
    (now : Timestamp) : List PurgeTarget → PurgeReport → Action σ PurgeReport
  | [], report => fun s => (.ok report, s)
  | t :: rest, report => fun s =>
    match cutoffOf default now t with
    | none => purgePoints b capabilities default now rest report s
    | some cutoff =>
      match capabilities.require .delete with
      | .error e => (.error e, s)
      | .ok () =>
        match b.deleteWithin t.point.series ⟨none, some cutoff⟩ s with
        | (.error e, s) => (.error e, s)
        | (.ok deleted, s) =>
          purgePoints b capabilities default now rest
            { report with
              pointsPurged := report.pointsPurged + 1
              valuesDeleted := report.valuesDeleted + deleted.getD 0 } s

/-- Hands the period to the backend unless it was the last one handed over, and lets the backend
expire values. -/
def applyRetention (b : Backend σ) (period : Period) (now : Timestamp) (report : PurgeReport) :
    Action (PurgeState σ ω) PurgeReport := fun st =>
  let handOver : Except BackendFailure Unit × PurgeState σ ω :=
    if st.manager.applied = some period then (.ok (), st)
    else
      match b.setRetention period st.store with
      | (.error e, store) => (.error e, { st with store })
      | (.ok (), store) =>
        (.ok (), { st with store, manager := { st.manager with applied := some period } })
  match handOver with
  | (.error e, st) => (.error e, st)
  | (.ok (), st) =>
    match b.enforceRetention now st.store with
    | (.error e, store) => (.error e, { st with store })
    | (.ok expired, store) =>
      (.ok { report with
          retentionApplied := true
          valuesDeleted := report.valuesDeleted + expired.getD 0 }, { st with store })

/-- Expires old values, in the way that the backend asks for. -/
def expire (b : Backend σ) (catalog : Catalog (PurgeState σ ω)) (now : Timestamp) :
    Action (PurgeState σ ω) PurgeReport := fun st =>
  let default := st.manager.defaultPeriod
  if b.purgesPoints st.store then
    let (targets, st) := catalog.targets st
    let (result, store) :=
      purgePoints b st.manager.capabilities default now targets .blank st.store
    (result, { st with store })
  else
    let report := { PurgeReport.blank with pointsSkipped := true }
    match default with
    | some period =>
      if st.manager.capabilities.supports .retentionPolicy then
        applyRetention b period now report st
      else (.ok report, st)
    | none => (.ok report, st)

/-- Deletes the values of series that belong to no point, if the backend can. -/
def removeOrphans (b : Backend σ) (catalog : Catalog (PurgeState σ ω)) (report : PurgeReport) :
    Action (PurgeState σ ω) PurgeReport := fun st =>
  if st.manager.capabilities.supports .deleteOrphaned then
    let (live, st) := catalog.live st
    match b.deleteOrphaned live st.store with
    | (.error e, store) => (.error e, { st with store })
    | (.ok orphansDeleted, store) => (.ok { report with orphansDeleted }, { st with store })
  else (.ok { report with orphansSkipped := true }, st)

/-- Changes the manager of a state. -/
def change (f : PurgeManager → PurgeManager) (st : PurgeState σ ω) : PurgeState σ ω :=
  { st with manager := f st.manager }

/-- Purges as of `now`, or does nothing if a run is under way. -/
def run (b : Backend σ) (catalog : Catalog (PurgeState σ ω)) (now : Timestamp) :
    StateM (PurgeState σ ω) (Except Failure (Option PurgeReport)) := fun st =>
  if st.manager.isRunning then (.ok none, st)
  else
    let (result, st) := expire b catalog now (change (fun m => { m with isRunning := true }) st)
    let (result, st) : Except BackendFailure PurgeReport × PurgeState σ ω :=
      match result with
      | .error e => (.error e, st)
      | .ok report => removeOrphans b catalog report st
    match result with
    | .error e => (.error (.ofBackend e), change (fun m => { m with isRunning := false }) st)
    | .ok report =>
      (.ok (some report),
        change (fun m => { m with isRunning := false, runs := m.runs + 1 }) st)

/-- Changes the default period of later runs. -/
def setDefaultPeriod (m : PurgeManager) (p : Option Period) : PurgeManager :=
  { m with defaultPeriod := p }

end PurgeManager

/-- What a run that was asked for during another one found: whether the other one was under way, and
how it was answered. -/
abbrev NestedRun := Option (Bool × Except Failure (Option PurgeReport))

/-- A catalog of a fixed list that asks for another run before it gives its targets. -/
def Catalog.nesting {σ : Type} (b : Backend σ) (now : Timestamp) (targets : List PurgeTarget) :
    Catalog (PurgeState σ NestedRun) where
  targets := do
    let r ← PurgeManager.run b (.fixed targets) now
    modify fun st => { st with outside := some (st.manager.isRunning, r) }
    return targets
  live := (Catalog.fixed targets).live

end Historian
