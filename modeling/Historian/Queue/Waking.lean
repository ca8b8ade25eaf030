import Historian.Queue.Pool

/-!
# Who is woken

In a `Pool` workers and waiting calls may look at any time whether they can go on, and a flush is made
and looks in one step.  In a `WakingPool` a worker that has gone on as far as it can sleeps until it is
woken, and a flush takes its steps one by one, with anything happening in between.

## Protocol

* A flush is counted first, and calls the workers that fill a batch.  Then it listens, and only after
  that it looks at what is pending.  If nothing is, it returns.  If something is, it sleeps; but if the
  alarm has been given since it began to listen, it listens anew instead.
* The return of the last batch that was pending owes an alarm to the flushes.  It is given later, to
  all that listen by then.
* A worker that has looked at its queue pauses before it sleeps.  A flush that calls it in the pause is
  not heard.
* A sample wakes the worker whose queue it joins, and closing the pool wakes all that look at their
  queues.  The clock wakes a worker whose batch has been open for long enough.  A batch that returns
  wakes its worker.

Saves and stops that wait are not made to sleep here: they may look at any time.
-/

set_option autoImplicit false

namespace Historian

namespace WakingPool

/-- How far a flush has come that has not returned: it does not listen, yet or any more; it listens
and has not looked, and the alarm may have been given since; or it listens and has found something
pending. -/
inductive Stage
  | arriving
  | listening (alarmed : Bool)
  | asleep
  deriving DecidableEq

namespace Stage

def listen : Stage → Stage
  | arriving => listening false
  | stage => stage

/-- What becomes of a flush that finds something pending. -/
def look : Stage → Stage
  | listening alarmed => if alarmed then arriving else asleep
  | stage => stage

/-- The alarm is heard by those that listen. -/
def hear : Stage → Stage
  | arriving => arriving
  | listening _ => listening true
  | asleep => arriving

def isListening : Stage → Bool
  | listening _ => true
  | _ => false

end Stage

/-- What can happen to a pool whose workers and flushes have to be woken: what can happen to any
pool, but that flushes do not look by it; a flush begins to listen, or looks at what is pending if
it listens; an alarm that is owed is given; or the pause of a worker is over. -/
inductive Event
  | pool (event : Pool.Event)
  | listen (call : Ticket)
  | look (call : Ticket)
  | alarm
  | doze (worker : Nat)
  deriving DecidableEq

end WakingPool

/-- A pool whose workers and flushes have to be woken: the flushes that have not returned, how many
alarms are owed to them, the workers that have been woken and have not looked since, and those that
have looked and do not sleep yet. -/
structure WakingPool where
  pool : Pool
  flushes : List (Ticket × WakingPool.Stage)
  alarms : Nat
  woken : List Nat
  pausing : List Nat

namespace WakingPool

open Pool (Worker Effect Request)

/-- A pool at rest, with everybody asleep. -/
def start (settings : WriterSettings) (valid : settings.Valid) (tick now : Nat) : WakingPool :=
  ⟨.start settings valid tick now, [], 0, [], []⟩

/-- What an event does to the pool: a flush is counted and waits, whether or not anything is
pending. -/
def act (p : Pool) : Pool.Event → Pool × List Effect
  | .call .flush =>
    ({ p with calls := p.calls + 1, flushers := p.flushers + 1 }.park p.calls .flush, [])
  | e => p.step e

/-! ## Workers -/

/-- Whether an event wakes a worker, `w` before it and `w'` after it. -/
def wakes (p q : Pool) (e : Pool.Event) (pauses : Bool) (w w' : Worker) : Bool :=
  w.queue.length < w'.queue.length ||
    match w'.activity with
    | .idle => w.isWriting || (p.isOpen && !q.isOpen)
    | .gathering _ deadline =>
      (p.isOpen && !q.isOpen) || (e == .call .flush && !pauses) ||
        (p.now < deadline && deadline ≤ q.now)
    | .writing .. => false

/-- The workers that an event wakes by making `q` of the pool. -/
def wokenWorkers (s : WakingPool) (q : Pool) (e : Pool.Event) : List Nat :=
  (((s.pool.workers.zip q.workers).zipIdx).filter fun x =>
    wakes s.pool q e (s.pausing.contains x.2) x.1.1 x.1.2).map (·.2)

/-- Whether an event is for somebody who has to be woken first; a flush does not look by it. -/
def isAsleep (s : WakingPool) : Pool.Event → Bool
  | .work i => !s.woken.contains i
  | .poll c => s.flushes.any fun f => f.1 == c
  | _ => false

/-! ## Flushes -/

/-- Changes how far a flush has come. -/
def update (s : WakingPool) (c : Ticket) (f : Stage → Stage) : List (Ticket × Stage) :=
  s.flushes.map fun x => if x.1 = c then (x.1, f x.2) else x

/-- Whether a flush listens and is to look. -/
def isListening (s : WakingPool) (c : Ticket) : Bool :=
  s.flushes.any fun f => f.1 == c && f.2.isListening

/-! ## Runs -/

/-- The state after an event that makes `q` of the pool. -/
def after (s : WakingPool) (e : Pool.Event) (q : Pool) : WakingPool where
  pool := q
  flushes :=
    match e with
    | .call .flush => s.flushes ++ [(s.pool.calls, .arriving)]
    | .abandon c => s.flushes.filter fun f => f.1 != c
    | _ => s.flushes
  alarms := if s.pool.pending ≠ 0 ∧ q.pending = 0 then s.alarms + 1 else s.alarms
  woken :=
    match e with
    | .work i => s.woken.filter (· != i) ++ s.wokenWorkers q e
    | _ => s.woken ++ s.wokenWorkers q e
  pausing :=
    match e with
    | .work i => i :: s.pausing
    | _ => s.pausing

/-- One event, with the effects it has in order. -/
def step (s : WakingPool) : Event → WakingPool × List Effect
  | .pool e =>
    if s.isAsleep e then (s, [])
    else
      let (q, effects) := act s.pool e
      (s.after e q, effects)
  | .listen c => ({ s with flushes := s.update c .listen }, [])
  | .look c =>
    if s.pool.pending = 0 ∧ s.isListening c then
      let (q, effects) := s.pool.poll c
      ({ s with pool := q, flushes := s.flushes.filter fun f => f.1 != c }, effects)
    else ({ s with flushes := s.update c .look }, [])
  | .alarm =>
    match s.alarms with
    | 0 => (s, [])
    | n + 1 => ({ s with alarms := n, flushes := s.flushes.map fun f => (f.1, f.2.hear) }, [])
  | .doze i => ({ s with pausing := s.pausing.filter (· != i) }, [])

/-- A run of events, with all effects in order. -/
def run (s : WakingPool) : List Event → WakingPool × List Effect
  | [] => (s, [])
  | e :: rest =>
    let (s, first) := s.step e
    let (s, later) := s.run rest
    (s, first ++ later)

/-- Whether an event is somebody's going on by himself. -/
def Event.isInner : Event → Bool
  | .pool (.work _) => true
  | .pool (.poll _) => true
  | .pool _ => false
  | _ => true

/-- Nobody goes on by himself any more. -/
def Settled (s : WakingPool) : Prop :=
  ∀ e : Event, e.isInner →
    (s.step e).2 = [] ∧ (s.step e).1.pool = s.pool ∧ (s.step e).1.flushes = s.flushes ∧
      (s.step e).1.alarms = s.alarms

end WakingPool

end Historian
