import Historian.Purge
import Historian.Proofs.Store.Stored

/-!
# Purge runs

A run is an expiry and then a removal of orphans, over a catalog that gives the same answers all the
time and does nothing else.

* `PurgeManager.removeOrphans_eq` — what is removed is what belongs to no live series.
* `PurgeManager.run_of_expire`, `PurgeManager.run_of_error` — a run from its expiry.
-/

set_option autoImplicit false

namespace Historian

/-- A catalog that gives the same answers all the time. -/
def Catalog.steady {τ : Type} (targets : List PurgeTarget) (live : List SeriesId) : Catalog τ :=
  ⟨pure targets, pure live⟩

namespace PurgeManager

variable {σ ω : Type}

/-- The report after the removal of orphans, if that is declared. -/
def withOrphans (report : PurgeReport) (declared : Bool) (count : Nat) : PurgeReport :=
  { report with
    orphansSkipped := report.orphansSkipped || !declared
    orphansDeleted := if declared then some count else report.orphansDeleted }

/-- Removing orphans leaves the live series as they are. -/
theorem removeOrphans_eq (targets : List PurgeTarget) (live : List SeriesId) (report : PurgeReport)
    {manager : PurgeManager} {m : Memory} (o : ω) (hcaps : manager.capabilities = m.capabilities) :
    ∃ a, removeOrphans Memory.backend (.steady targets live) report ⟨manager, m, o⟩ =
        (.ok (withOrphans report (m.capabilities.supports .deleteOrphaned)
          (m.archive.stored.countP fun r => !live.contains r.series)),
          ⟨manager, { m with archive := a }, o⟩) ∧
      a.stored = m.archive.stored.filter fun r =>
        !m.capabilities.supports .deleteOrphaned || live.contains r.series := by
  cases hsupports : m.capabilities.supports .deleteOrphaned with
  | false =>
    refine ⟨m.archive, ?_, (List.filter_eq_self.2 fun r _ => by simp).symm⟩
    simp [removeOrphans, withOrphans, hcaps, hsupports]
  | true =>
    have hleft := Archive.stored_keepOnly m.archive live
    have hdelete := Memory.delete_eq hsupports (fun a => a.keepOnly live)
      (fun r => !live.contains r.series) (by simpa using hleft)
    have hlive (st : PurgeState Memory ω) : (Catalog.steady targets live).live st = (live, st) := rfl
    refine ⟨m.archive.keepOnly live, ?_, by simpa using hleft⟩
    simp only [removeOrphans, withOrphans, hlive, hcaps, hsupports, Memory.backend, if_true, hdelete,
      Bool.not_true, Bool.or_false]

/-- The manager while a run is under way. -/
def begun (manager : PurgeManager) : PurgeManager := { manager with isRunning := true }

/-- The manager after a run that ended with a report. -/
def ended (manager : PurgeManager) : PurgeManager :=
  { manager with isRunning := false, runs := manager.runs + 1 }

section

variable {b : Backend σ} {catalog : Catalog (PurgeState σ ω)} {now : Timestamp}
  {st st₁ st₂ : PurgeState σ ω} {report report' : PurgeReport}

theorem run_of_expire (hidle : st.manager.isRunning = false)
    (hexpire : expire b catalog now (change begun st) = (.ok report, st₁))
    (horphans : removeOrphans b catalog report st₁ = (.ok report', st₂)) :
    run b catalog now st = (.ok (some report'), change ended st₂) := by
  have hexpire' : expire b catalog now (change (fun m => { m with isRunning := true }) st) =
      (.ok report, st₁) := hexpire
  simp only [run, hidle, Bool.false_eq_true, if_false, hexpire', horphans]
  rfl

/-- A run whose expiry fails goes no further. -/
theorem run_of_error {e : BackendFailure} (hidle : st.manager.isRunning = false)
    (hexpire : expire b catalog now (change begun st) = (.error e, st₁)) :
    run b catalog now st =
      (.error (.ofBackend e), change (fun m => { m with isRunning := false }) st₁) := by
  have hexpire' : expire b catalog now (change (fun m => { m with isRunning := true }) st) =
      (.error e, st₁) := hexpire
  simp only [run, hidle, Bool.false_eq_true, if_false, hexpire']

end

end PurgeManager

end Historian
