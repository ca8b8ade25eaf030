import Historian.Purge
import Historian.Service.Group
import Historian.Settings

/-!
# Scheduled purging

A `PurgeService` is a group with one service, which runs purge at fixed intervals from its start
until it is asked to stop.  Ticks that are missed while the clock jumps are made up for by one run,
and the schedule keeps its places.
-/

set_option autoImplicit false

namespace Historian

/-- The purge service and its schedule: when the next run is due, while the service is on schedule,
and the report of the last scheduled run that had one. -/
structure PurgeService where
  settings : PurgeSettings
  group : Group
  nextRun : Option Nat
  lastReport : Option PurgeReport

namespace PurgeService

/-- The name of the service in its group. -/
def name : String := "purge"

/-- How the service runs.  It keeps to its schedule until it is asked to stop; where the first run
would lie beyond the range of the clock, its task breaks off at once and its status says nothing of
it. -/
def behaviour (settings : PurgeSettings) : ServiceBehaviour :=
  if settings.enabled && !settings.runOnStart && Group.clockRange ≤ settings.interval * 1000 then
    .forTime 0 .running
  else .untilStopped 0 .stopped

/-- The service, not started. -/
def new (settings : PurgeSettings) (now : Nat) : PurgeService :=
  let group := ((Group.new Group.defaultStopLimit now).step
    (.register name (behaviour settings))).1
  ⟨settings, group, none, none⟩

/-- Milliseconds between runs. -/
def period (s : PurgeService) : Nat := s.settings.interval * 1000

/-- Takes up the schedule when the service begins, and drops it when the service ends. -/
def follow (s : PurgeService) : PurgeService :=
  if s.settings.enabled && s.group.isListening name then
    let first := if s.settings.runOnStart then s.group.now else s.group.now + s.period
    { s with nextRun := some (s.nextRun.getD first) }
  else { s with nextRun := none }

/-- One event of the group, with the answers it brings about. -/
def step (s : PurgeService) (e : Group.Event) : PurgeService × List Group.Answer :=
  let (group, answers) := s.group.step e
  ({ s with group }.follow, answers)

/-- The first time after `now` that is a whole number of periods after `due`. -/
def tickAfter (period due now : Nat) : Nat := due + period * ((now - due) / period + 1)

/-- Runs purge if it is due, and looks for the next time. -/
def runIfDue {τ : Type} (s : PurgeService) (purge : StateM τ (Except Failure (Option PurgeReport))) :
    StateM τ PurgeService := fun st =>
  match s.nextRun with
  | none => (s, st)
  | some due =>
    if due ≤ s.group.now then
      let (result, st) := purge st
      let lastReport := match result with
        | .ok (some report) => some report
        | _ => s.lastReport
      ({ s with nextRun := some (tickAfter s.period due s.group.now), lastReport }, st)
    else (s, st)

end PurgeService

end Historian
