import Historian.Purge

/-!
# Purge runs that overlap

Several callers may ask one manager for runs at the same time, and a catalog may ask for another run
while a run waits for its answer.  `PurgeManager.run` is one run from its call to its end; in
`PurgeRuns` a run takes its steps one by one, with anything happening in between.

## Protocol

* `call` asks for a run.  While the manager says that a run is under way it is answered at once, with
  nothing; otherwise it raises the manager's flag, and the run begins.
* `go` lets one run take its next step: a step reads what the manager keeps, gets an answer of the
  catalog, or makes one call to the backend.
* Before its last step a run that succeeds is counted; with its last step it lowers the flag and is
  answered.

The catalog is outside: `Directory` says what it answers to each run.  Whatever else happens to the
store meanwhile is part of how the backend answers.
-/

set_option autoImplicit false

namespace Historian

namespace PurgeRuns

/-- A call that a run makes to the backend: `preference` asks whether old values are purged point by
point, and `delete` is of the values of a series before a time. -/
inductive Operation
  | preference
  | delete (series : SeriesId) (cutoff : Timestamp)
  | setRetention (period : Period)
  | enforceRetention
  | deleteOrphaned (live : List SeriesId)
  deriving DecidableEq

/-- How far a run has come; what it has read is its own from then on.  When it has raised the flag
it waits for the targets of the catalog and purges them one by one, or hands a period to the backend
and lets it expire values.  Then it waits for the live series of the catalog and removes the others,
is counted, and lowers the flag. -/
inductive Stage
  | opened
  | listing (default : Option Period)
  | purging (default : Option Period) (rest : List PurgeTarget) (report : PurgeReport)
  | handing (period : Period) (report : PurgeReport)
  | enforcing (report : PurgeReport)
  | expired (report : PurgeReport)
  | naming (report : PurgeReport)
  | cleaning (live : List SeriesId) (report : PurgeReport)
  | finishing (report : PurgeReport)
  | leaving (result : Except BackendFailure PurgeReport)

/-- A run under way, which purges as of the time `now`. -/
structure Run where
  number : Nat
  now : Timestamp
  stage : Stage

/-- What the catalog answers to the run of a number. -/
structure Directory where
  targets : Nat → List PurgeTarget
  live : Nat → List SeriesId

/-- The directory as the catalog of one run. -/
def Directory.catalog {τ : Type} (directory : Directory) (n : Nat) : Catalog τ where
  targets := pure (directory.targets n)
  live := pure (directory.live n)

/-- What others see of runs: the calls to the backend, which has done as asked or failed, and the
answers. -/
inductive Effect
  | called (run : Nat) (operation : Operation) (done : Bool)
  | answered (run : Nat) (answer : Except Failure (Option PurgeReport))

/-- What can happen. -/
inductive Event
  | call (now : Timestamp)
  | go (run : Nat)
  deriving DecidableEq

end PurgeRuns

/-- A manager, its store, the number of calls made so far, and the runs under way. -/
structure PurgeRuns (σ : Type) where
  manager : PurgeManager
  store : σ
  calls : Nat
  underWay : List PurgeRuns.Run

namespace PurgeRuns

variable {σ : Type}

/-- A new manager over a store. -/
def start (capabilities : Capabilities) (default : Option Period) (store : σ) : PurgeRuns σ :=
  ⟨.new capabilities default, store, 0, []⟩

/-- What a step comes to: the stage that the run has reached, the manager and the store after it, and
the call to the backend that it has made, if any. -/
structure Progress (σ : Type) where
  stage : Stage
  manager : PurgeManager
  store : σ
  called : Option (Operation × Bool)

/-- The next step of a run. -/
def Stage.next (b : Backend σ) (directory : Directory) (r : Run) (m : PurgeManager) (s : σ) :
    Progress σ :=
  match r.stage with
  | .opened =>
    if b.purgesPoints s then ⟨.listing m.defaultPeriod, m, s, some (.preference, true)⟩
    else
      let report := { PurgeReport.blank with pointsSkipped := true }
      match m.defaultPeriod with
      | some period =>
        if m.capabilities.supports .retentionPolicy then
          ⟨.handing period report, m, s, some (.preference, true)⟩
        else ⟨.expired report, m, s, some (.preference, true)⟩
      | none => ⟨.expired report, m, s, some (.preference, true)⟩
  | .listing default => ⟨.purging default (directory.targets r.number) .blank, m, s, none⟩
  | .purging _ [] report => ⟨.expired report, m, s, none⟩
  | .purging default (t :: rest) report =>
    match PurgeManager.cutoffOf default r.now t with
    | none => ⟨.purging default rest report, m, s, none⟩
    | some cutoff =>
      match m.capabilities.require .delete with
      | .error e => ⟨.leaving (.error e), m, s, none⟩
      | .ok () =>
        match b.deleteWithin t.point.series ⟨none, some cutoff⟩ s with
        | (.error e, s) =>
          ⟨.leaving (.error e), m, s, some (.delete t.point.series cutoff, false)⟩
        | (.ok deleted, s) =>
          ⟨.purging default rest { report with
              pointsPurged := report.pointsPurged + 1
              valuesDeleted := report.valuesDeleted + deleted.getD 0 }, m, s,
            some (.delete t.point.series cutoff, true)⟩
  | .handing period report =>
    if m.applied = some period then ⟨.enforcing report, m, s, none⟩
    else
      match b.setRetention period s with
      | (.error e, s) => ⟨.leaving (.error e), m, s, some (.setRetention period, false)⟩
      | (.ok (), s) =>
        ⟨.enforcing report, { m with applied := some period }, s, some (.setRetention period, true)⟩
  | .enforcing report =>
    match b.enforceRetention r.now s with
    | (.error e, s) => ⟨.leaving (.error e), m, s, some (.enforceRetention, false)⟩
    | (.ok gone, s) =>
      ⟨.expired { report with
          retentionApplied := true
          valuesDeleted := report.valuesDeleted + gone.getD 0 }, m, s,
        some (.enforceRetention, true)⟩
  | .expired report =>
    if m.capabilities.supports .deleteOrphaned then ⟨.naming report, m, s, none⟩
    else ⟨.finishing { report with orphansSkipped := true }, m, s, none⟩
  | .naming report => ⟨.cleaning (directory.live r.number) report, m, s, none⟩
  | .cleaning live report =>
    match b.deleteOrphaned live s with
    | (.error e, s) => ⟨.leaving (.error e), m, s, some (.deleteOrphaned live, false)⟩
    | (.ok orphansDeleted, s) =>
      ⟨.finishing { report with orphansDeleted }, m, s, some (.deleteOrphaned live, true)⟩
  | .finishing report => ⟨.leaving (.ok report), { m with runs := m.runs + 1 }, s, none⟩
  | .leaving result => ⟨.leaving result, m, s, none⟩

/-- How a run that has ended is answered. -/
def answerTo : Except BackendFailure PurgeReport → Except Failure (Option PurgeReport)
  | .error e => .error (.ofBackend e)
  | .ok report => .ok (some report)

/-- Asks for a run. -/
def call (s : PurgeRuns σ) (now : Timestamp) : PurgeRuns σ × List Effect :=
  let number := s.calls
  let s := { s with calls := s.calls + 1 }
  if s.manager.isRunning then (s, [.answered number (.ok none)])
  else
    ({ s with
        manager := { s.manager with isRunning := true }
        underWay := s.underWay ++ [⟨number, now, .opened⟩] }, [])

/-- Lets a run take its next step. -/
def go (b : Backend σ) (directory : Directory) (s : PurgeRuns σ) (n : Nat) :
    PurgeRuns σ × List Effect :=
  match s.underWay.find? fun r => r.number == n with
  | none => (s, [])
  | some r =>
    match r.stage with
    | .leaving result =>
      ({ s with
          manager := { s.manager with isRunning := false }
          underWay := s.underWay.filter fun r => r.number != n }, [.answered n (answerTo result)])
    | _ =>
      let p := Stage.next b directory r s.manager s.store
      ({ s with
          manager := p.manager
          store := p.store
          underWay := s.underWay.map fun r => if r.number = n then { r with stage := p.stage } else r },
        (p.called.map fun c => .called n c.1 c.2).toList)

/-- One event, with the effects it has in order. -/
def step (b : Backend σ) (directory : Directory) (s : PurgeRuns σ) :
    Event → PurgeRuns σ × List Effect
  | .call now => s.call now
  | .go n => s.go b directory n

/-- A run of events, with all effects in order. -/
def run (b : Backend σ) (directory : Directory) (s : PurgeRuns σ) :
    List Event → PurgeRuns σ × List Effect
  | [] => (s, [])
  | e :: rest =>
    let (s, first) := s.step b directory e
    let (s, later) := s.run b directory rest
    (s, first ++ later)

end PurgeRuns

end Historian
