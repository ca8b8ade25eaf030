import Historian.Number.Binary64
import Historian.SortedMap
import Historian.Text.Quoted

/-!
# Groups of services

A `Group` starts its services together and stops them together.  Starting makes one task for each
service; stopping asks all tasks to end and waits for them, one after the other by name, against one
deadline.

A stop takes the tasks over when it begins: from then on the group does not count them as its own,
even though they may still run, and once the deadline has passed nobody waits for them any more.

## Protocol

* `register`, `start` and `stop` are calls.  The first two are answered at once.
* `advance` moves the clock.  Tasks end and deadlines pass in the order of their times.
* After every event each task goes on until it waits for time or for a stop request, and then every
  waiting call looks whether it can return.

A deadline is the sum of the time of its stop and `stopLimit`.  The clock ends at `Group.clockRange`,
and a stop whose deadline lies beyond that breaks off instead of waiting: what is said here of stops is
about groups with `now + stopLimit < clockRange`.
-/

set_option autoImplicit false

namespace Historian

/-- What a service says of itself. -/
inductive ServiceStatus
  | idle
  | running
  | stopped
  | failed (reason : String)
  deriving DecidableEq

/-- Whether the service is running. -/
def ServiceStatus.isHealthy : ServiceStatus → Bool
  | running => true
  | _ => false

/-- Whether the service has ended, cleanly or not. -/
def ServiceStatus.isStopped : ServiceStatus → Bool
  | stopped => true
  | failed _ => true
  | _ => false

/-- How a service runs: it waits for a stop request and ends so many milliseconds later, or it ends
after so many milliseconds, whatever is asked of it.  `last` is the status that its task leaves
behind. -/
inductive ServiceBehaviour
  | untilStopped (grace : Nat) (last : ServiceStatus)
  | forTime (duration : Nat) (last : ServiceStatus)
  deriving DecidableEq

/-- The status that a task of the service leaves behind. -/
def ServiceBehaviour.last : ServiceBehaviour → ServiceStatus
  | untilStopped _ s => s
  | forTime _ s => s

/-- A call that a group refuses, or cannot carry out. -/
inductive ServiceFailure
  | duplicate (name : String)
  | alreadyStarted
  | unknown (name : String)
  | late (names : List String)
  deriving DecidableEq

def ServiceFailure.message : ServiceFailure → String
  | duplicate name => "duplicate service name: " ++ name
  | alreadyStarted => "services already started"
  | unknown name => "unknown service: " ++ name
  | late names => "services did not stop in time: " ++ Text.quotedList names

namespace Group

/-- Where a task is: made and not begun, waiting for a stop request, asleep, or at its end. -/
inductive Phase
  | fresh
  | listening
  | sleeping (wake : Nat)
  | ended
  deriving DecidableEq

namespace Phase

/-- Sleeps until `wake`, unless that is over. -/
def sleepUntil (wake now : Nat) : Phase := if wake ≤ now then ended else sleeping wake

/-- Where a task of the given behaviour gets to without time passing. -/
def next (b : ServiceBehaviour) (stopRequested : Bool) (now : Nat) : Phase → Phase
  | fresh =>
    match b with
    | .untilStopped grace _ => if stopRequested then sleepUntil (now + grace) now else listening
    | .forTime duration _ => sleepUntil (now + duration) now
  | listening =>
    match b with
    | .untilStopped grace _ => if stopRequested then sleepUntil (now + grace) now else listening
    | .forTime .. => listening
  | sleeping wake => sleepUntil wake now
  | ended => ended

/-- When the phase ends by itself. -/
def timer? : Phase → Option Nat
  | sleeping wake => some wake
  | _ => none

end Phase

/-- One run of a service. -/
structure Task where
  number : Nat
  name : String
  phase : Phase
  deriving DecidableEq

/-- Whether the task has ended. -/
def Task.hasEnded (t : Task) : Bool := t.phase = .ended

/-- A registered service, with the task that the group counts as its own. -/
structure Member where
  behaviour : ServiceBehaviour
  status : ServiceStatus
  task : Option Nat
  startedAt : Option Nat
  deriving DecidableEq

/-- A service that has not been started. -/
def Member.new (behaviour : ServiceBehaviour) : Member := ⟨behaviour, .idle, none, none⟩

/-- A stop that has not returned: the tasks that it has not waited for yet, by name, and the
services that were still running at the deadline. -/
structure Stopping where
  call : Nat
  awaited : List (String × Nat)
  late : List String
  deadline : Nat
  deriving DecidableEq

/-- An answer to a call. -/
abbrev Answer := Nat × Except ServiceFailure Unit

end Group

/-- Services that are started and stopped together, with every task made so far and the stops that
have not returned, the oldest first.  A stop may take `stopLimit` milliseconds, `now` is the time on
the group's clock, and `calls` counts the calls made so far. -/
structure Group where
  stopLimit : Nat
  members : SortedMap String Group.Member
  tasks : List Group.Task
  stopRequested : Bool
  stops : List Group.Stopping
  now : Nat
  calls : Nat

namespace Group

/-- The milliseconds that the clock has. -/
def clockRange : Nat := twoTo 63 * 1000

/-- The time that a stop may take unless another is given. -/
def defaultStopLimit : Nat := 30000

/-- A group without services. -/
def new (stopLimit now : Nat) : Group := ⟨stopLimit, .empty, [], false, [], now, 0⟩

/-- Whether the group counts a task as its own. -/
def isRunning (g : Group) : Bool := g.members.values.any fun m => m.task.isSome

/-- The status of a service. -/
def status (g : Group) (name : String) : Except ServiceFailure ServiceStatus :=
  match g.members.get? name with
  | some m => .ok m.status
  | none => .error (.unknown name)

/-- How long ago a service was started, if it has been and was not stopped since. -/
def uptime (g : Group) (name : String) : Option Nat :=
  ((g.members.get? name).bind Member.startedAt).map (g.now - ·)

/-- Whether the task of a number has ended. -/
def hasEnded (g : Group) (number : Nat) : Bool :=
  g.tasks.all fun t => t.number != number || t.hasEnded

/-- Whether a service has a task that waits for a stop request. -/
def isListening (g : Group) (name : String) : Bool :=
  g.tasks.any fun t => t.name == name && t.phase = .listening

/-! ## Tasks and waiting calls go on -/

/-- The status of a service after its task has gone on. -/
def statusAfter (b : ServiceBehaviour) (old new : Phase) (status : ServiceStatus) : ServiceStatus :=
  if new = .ended ∧ old ≠ .ended then b.last
  else if old = .fresh then .running
  else status

/-- Lets one task go on. -/
def runTask (g : Group) (number : Nat) : Group :=
  match g.tasks.find? fun t => t.number == number with
  | none => g
  | some t =>
    match g.members.get? t.name with
    | none => g
    | some m =>
      let phase := t.phase.next m.behaviour g.stopRequested g.now
      { g with
        tasks := g.tasks.map fun u => if u.number = number then { u with phase } else u
        members := g.members.insert t.name
          { m with status := statusAfter m.behaviour t.phase phase m.status } }

/-- Lets every task go on. -/
def runTasks (g : Group) : Group := (g.tasks.map Task.number).foldl runTask g

/-- Waits for one task after the other: one that has ended is passed over, one that has not is waited
for until the deadline and late from then on.  Gives the tasks still to be waited for and the late
services. -/
def awaitInTurn (g : Group) (deadline : Nat) :
    List (String × Nat) → List String → List (String × Nat) × List String
  | [], late => ([], late)
  | (name, task) :: rest, late =>
    if g.hasEnded task then awaitInTurn g deadline rest late
    else if deadline ≤ g.now then awaitInTurn g deadline rest (late ++ [name])
    else ((name, task) :: rest, late)

/-- Lets a stop look whether it can return. -/
def pollStop (g : Group) (s : Stopping) : Stopping ⊕ Answer :=
  match g.awaitInTurn s.deadline s.awaited s.late with
  | ([], []) => .inr (s.call, .ok ())
  | ([], late) => .inr (s.call, .error (.late late))
  | (awaited, late) => .inl { s with awaited, late }

/-- Lets everything go on until it waits for time. -/
def settle (g : Group) : Group × List Answer :=
  let g := g.runTasks
  let polled := g.stops.map g.pollStop
  ({ g with stops := polled.filterMap Sum.getLeft? }, polled.filterMap Sum.getRight?)

/-! ## Events -/

/-- Adds a service; names are unique. -/
def register (g : Group) (name : String) (b : ServiceBehaviour) : Except ServiceFailure Group :=
  if g.members.contains name then .error (.duplicate name)
  else .ok { g with members := g.members.insert name (.new b) }

/-- Makes a task for every service. -/
def start (g : Group) : Except ServiceFailure Group :=
  if g.isRunning then .error .alreadyStarted
  else
    let numbered := g.members.keys.zipIdx g.tasks.length
    .ok { g with
      stopRequested := false
      tasks := g.tasks ++ numbered.map fun (name, number) => ⟨number, name, .fresh⟩
      members := numbered.foldl (fun members (name, number) =>
        match members.get? name with
        | some m => members.insert name { m with task := some number, startedAt := some g.now }
        | none => members) g.members }

/-- Asks every task to end, and takes over those that the group counts as its own. -/
def stop (g : Group) (call : Nat) : Group :=
  let taken := g.members.entries.filterMap fun (name, m) => m.task.map fun t => (name, t)
  { g with
    stopRequested := true
    members := g.members.mapValues fun _ m => { m with task := none, startedAt := none }
    stops := g.stops ++ [⟨call, taken, [], g.now + g.stopLimit⟩] }

/-- The times before `target` at which something ends by itself, in order. -/
def timersBefore (g : Group) (target : Nat) : List Nat :=
  let times := g.tasks.filterMap (fun t => t.phase.timer?) ++ g.stops.map Stopping.deadline
  SortedMap.distinct (times.filter fun t => g.now < t && t < target)

/-- Moves the clock, stopping at each of the given times for what is due. -/
def passThrough (g : Group) : List Nat → Group × List Answer
  | [] => (g, [])
  | t :: rest =>
    let (g, first) := { g with now := t }.settle
    let (g, later) := g.passThrough rest
    (g, first ++ later)

/-- What can happen to a group. -/
inductive Event
  | register (name : String) (behaviour : ServiceBehaviour)
  | start
  | stop
  | advance (time : Nat)
  deriving DecidableEq

/-- Answers a call that is answered at once; a refused call changes nothing. -/
def answerNow (g : Group) (result : Except ServiceFailure Group) : Group × List Answer :=
  let call := g.calls
  match result with
  | .error e => ({ g with calls := call + 1 }, [(call, .error e)])
  | .ok g =>
    let (g, later) := { g with calls := call + 1 }.settle
    (g, (call, .ok ()) :: later)

/-- One event, with the answers it brings about in order. -/
def step (g : Group) : Event → Group × List Answer
  | .register name b => g.answerNow (g.register name b)
  | .start => g.answerNow g.start
  | .stop => { g.stop g.calls with calls := g.calls + 1 }.settle
  | .advance time =>
    let target := g.now + time
    g.passThrough (g.timersBefore target ++ [target])

/-- A run of events, with all answers in order. -/
def run (g : Group) : List Event → Group × List Answer
  | [] => (g, [])
  | e :: rest =>
    let (g, first) := g.step e
    let (g, later) := g.run rest
    (g, first ++ later)

end Group

end Historian
