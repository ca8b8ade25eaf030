import Historian.Queue.RateMeter
import Historian.Queue.WriterSettings

/-!
# The writer pool

Samples saved through a `Pool` are accepted into a bounded queue and handed to the backend in
batches.  Each worker has the series of one remainder to itself and has one batch at a time, so the
samples of a series reach the backend in the order of their acceptance.

The backend is outside: the pool says which batch it hands over, and is told when that batch has
returned and whether it was stored.

## Protocol

* `call` makes a request: to save, to flush, or to stop.  It is answered at once or it waits.
* `work` lets one worker go on: it takes samples until its batch is full, and hands the batch over
  when it is full, when somebody waits for a flush, when the pool has been stopped, or when the
  batch has been open for long enough.
* `poll` lets one waiting call look whether it can return.
* `finish` reports that a worker's batch has returned from the backend.
* `abandon` drops a waiting call, and `advance` moves the clock.

A sample holds its place in the `Room` from its acceptance until its batch has returned.
-/

set_option autoImplicit false

namespace Historian

namespace Pool

/-- A sample on its way to the backend, with the ticket of its place. -/
structure Item where
  ticket : Ticket
  series : SeriesId
  sample : Sample
  deriving DecidableEq

/-- The sample as the backend takes it. -/
def Item.entry (x : Item) : SeriesId × Sample := (x.series, x.sample)

/-- What a worker is doing: nothing, filling a batch until `deadline` at the latest, or waiting for
the backend with the batch of its `turn`, which numbers the batches in the order of their handing
over. -/
inductive Activity
  | idle
  | gathering (batch : List Item) (deadline : Nat)
  | writing (batch : List Item) (turn : Nat)
  deriving DecidableEq

/-- One worker, with the samples it has not taken up. -/
structure Worker where
  queue : List Item
  activity : Activity
  deriving DecidableEq

namespace Worker

/-- A worker with nothing to do. -/
def fresh : Worker := ⟨[], .idle⟩

/-- The batch of the worker, handed over or not. -/
def batch (w : Worker) : List Item :=
  match w.activity with
  | .idle => []
  | .gathering b _ => b
  | .writing b _ => b

/-- Everything that the worker has still to see through, in order. -/
def load (w : Worker) : List Item := w.batch ++ w.queue

/-- Whether the worker has nothing to do. -/
def isDone (w : Worker) : Bool :=
  match w.queue, w.activity with
  | [], .idle => true
  | _, _ => false

/-- Whether the worker waits for the backend. -/
def isWriting (w : Worker) : Bool :=
  match w.activity with
  | .writing .. => true
  | _ => false

end Worker

/-- What a caller asks of a pool: to accept a sample; to return when nothing is pending; or to
accept nothing more, and return when everything accepted has been seen through. -/
inductive Request
  | save (series : SeriesId) (sample : Sample)
  | flush
  | stop
  deriving DecidableEq

/-- A call that has not returned, made at the time `since`. -/
structure Call where
  number : Ticket
  request : Request
  since : Nat
  deriving DecidableEq

/-- How a call ends; a sample is dropped for want of room. -/
inductive Outcome
  | queued
  | dropped
  | flushed
  | stopped
  | failed (cause : IntakeFailure)
  deriving DecidableEq

/-- How a request ends where nothing is queued: there is nothing to wait for, and nowhere to put a
sample. -/
def Outcome.withoutPool : Request → Outcome
  | .save .. => failed .disabled
  | .flush => flushed
  | .stop => stopped

/-- What others see of a pool: answers, batches that go to the backend, and batches that have come
back, stored or not. -/
inductive Effect
  | answered (call : Ticket) (outcome : Outcome)
  | handedOver (worker : Nat) (batch : List Item)
  | returned (worker : Nat) (batch : List Item) (stored : Bool)
  deriving DecidableEq

/-- What has been counted: samples accepted, stored, dropped or rejected for want of room, and lost
with a batch that was not stored; batches returned, and those of them that were not stored; samples
accepted whose batch has not returned, and batches at the backend. -/
structure Tally where
  enqueued : Nat
  written : Nat
  dropped : Nat
  rejected : Nat
  failed : Nat
  batches : Nat
  failedBatches : Nat
  depth : Nat
  active : Nat
  deriving DecidableEq

/-- Nothing counted. -/
def Tally.zero : Tally := ⟨0, 0, 0, 0, 0, 0, 0, 0, 0⟩

/-- How long, in milliseconds, stopping may take. -/
def drainLimit : Nat := 30000

end Pool

/-- Workers, their queues, and the calls that wait, the oldest first.  `pending` counts the samples
accepted whose batch has not returned and `flushers` the flushes asked for and not answered; `calls`
and `turns` number the calls made and the batches handed over, and `now` is in milliseconds. -/
structure Pool where
  settings : WriterSettings
  valid : settings.Valid
  room : Room
  workers : List Pool.Worker
  waiting : List Pool.Call
  pending : Nat
  flushers : Nat
  tally : Pool.Tally
  meter : RateMeter
  now : Nat
  calls : Nat
  turns : Nat

namespace Pool

/-- A pool at rest, whose meter has the given tick. -/
def start (settings : WriterSettings) (valid : settings.Valid) (tick now : Nat) : Pool where
  settings
  valid
  room := .new settings.capacity settings.overflow
  workers := List.replicate settings.workers .fresh
  waiting := []
  pending := 0
  flushers := 0
  tally := .zero
  meter := .new tick now
  now
  calls := 0
  turns := 0

/-- Whether the pool takes samples. -/
def isOpen (p : Pool) : Bool := p.room.isOpen

/-- The worker that a series belongs to. -/
def workerOf (p : Pool) (series : SeriesId) : Nat := series.toNat % p.settings.workers

/-- Whether everything accepted has been seen through. -/
def isDrained (p : Pool) : Bool := p.workers.all Worker.isDone

/-! ## Calls -/

/-- Puts a sample that holds a place into the queue of its worker. -/
def accept (p : Pool) (call : Ticket) (series : SeriesId) (sample : Sample) :
    Pool × List Effect :=
  ({ p with
      workers := p.workers.modify (p.workerOf series) fun w =>
        { w with queue := w.queue ++ [⟨call, series, sample⟩] }
      pending := p.pending + 1
      tally := { p.tally with enqueued := p.tally.enqueued + 1, depth := p.tally.depth + 1 } },
    [.answered call .queued])

/-- Lets a call wait. -/
def park (p : Pool) (call : Ticket) (request : Request) : Pool :=
  { p with waiting := p.waiting ++ [⟨call, request, p.now⟩] }

/-- Ends the waiting of a call. -/
def unpark (p : Pool) (call : Ticket) : Pool :=
  { p with waiting := p.waiting.filter fun c => c.number != call }

/-- Asks for room for a sample. -/
def save (p : Pool) (call : Ticket) (series : SeriesId) (sample : Sample) : Pool × List Effect :=
  let (room, answers) := p.room.request call
  let p := { p with room }
  match answers.lookup call with
  | none => (p.park call (.save series sample), [])
  | some .granted => p.accept call series sample
  | some .dropped =>
    ({ p with tally := { p.tally with dropped := p.tally.dropped + 1 } }, [.answered call .dropped])
  | some (.refused cause) =>
    let rejected := match cause with
      | .backpressure _ => p.tally.rejected + 1
      | _ => p.tally.rejected
    ({ p with tally := { p.tally with rejected } }, [.answered call (.failed cause)])

/-- Asks for everything pending to be written. -/
def flush (p : Pool) (call : Ticket) : Pool × List Effect :=
  if p.pending = 0 then (p, [.answered call .flushed])
  else ({ p with flushers := p.flushers + 1 }.park call .flush, [])

/-- Closes the pool.  Only the first such call waits. -/
def stop (p : Pool) (call : Ticket) : Pool × List Effect :=
  if p.isOpen then ({ p with room := p.room.close.1 }.park call .stop, [])
  else (p, [.answered call .stopped])

/-- Makes a request. -/
def call (p : Pool) (request : Request) : Pool × List Effect :=
  let number := p.calls
  let p := { p with calls := p.calls + 1 }
  match request with
  | .save series sample => p.save number series sample
  | .flush => p.flush number
  | .stop => p.stop number

/-- Gives back the place of a call, or its place in the line. -/
def leaveRoom (p : Pool) (call : Ticket) : Pool :=
  { p with
    room := if p.room.holders.contains call then (p.room.release call).1
      else (p.room.cancel call).1 }

/-- The waiting call of a number. -/
def waitingCall? (p : Pool) (call : Ticket) : Option Call := p.waiting.find? fun c => c.number == call

/-- Lets a waiting call return if it can. -/
def poll (p : Pool) (call : Ticket) : Pool × List Effect :=
  match p.waitingCall? call with
  | none => (p, [])
  | some c =>
    match c.request with
    | .save series sample =>
      if !p.isOpen then
        ((p.unpark call).leaveRoom call, [.answered call (.failed .queueClosed)])
      else if p.room.holders.contains call then (p.unpark call).accept call series sample
      else (p, [])
    | .flush =>
      if p.pending = 0 then
        ({ p with flushers := p.flushers - 1 }.unpark call, [.answered call .flushed])
      else (p, [])
    | .stop =>
      if p.isDrained then (p.unpark call, [.answered call .stopped])
      else if c.since + drainLimit ≤ p.now then
        (p.unpark call, [.answered call (.failed (.drainTimeout p.pending))])
      else (p, [])

/-- Drops a waiting call.  A sample that waits gives up its place; a flush stays counted, since only
its return takes it back. -/
def abandon (p : Pool) (call : Ticket) : Pool :=
  match p.waitingCall? call with
  | none => p
  | some c =>
    match c.request with
    | .save .. => (p.unpark call).leaveRoom call
    | _ => p.unpark call

/-! ## Workers -/

/-- Replaces one worker. -/
def setWorker (p : Pool) (i : Nat) (w : Worker) : Pool := { p with workers := p.workers.set i w }

/-- Whether an open batch is to be handed over. -/
def mustHandOver (p : Pool) (batch : List Item) (deadline : Nat) : Bool :=
  p.settings.maxBatch ≤ batch.length || 0 < p.flushers || !p.isOpen || deadline ≤ p.now

/-- Fills an open batch from the worker's queue, and hands it over if it is time. -/
def gather (p : Pool) (i : Nat) (queue batch : List Item) (deadline : Nat) : Pool × List Effect :=
  let space := p.settings.maxBatch - batch.length
  let batch := batch ++ queue.take space
  let queue := queue.drop space
  if p.mustHandOver batch deadline then
    ({ p with
        turns := p.turns + 1
        tally := { p.tally with active := p.tally.active + 1 } }.setWorker i
          ⟨queue, .writing batch p.turns⟩,
      [.handedOver i batch])
  else (p.setWorker i ⟨queue, .gathering batch deadline⟩, [])

/-- Lets a worker go on. -/
def work (p : Pool) (i : Nat) : Pool × List Effect :=
  match p.workers[i]? with
  | none => (p, [])
  | some w =>
    match w.activity, w.queue with
    | .idle, [] => (p, [])
    | .idle, x :: rest => p.gather i rest [x] (p.now + p.settings.maxDelay)
    | .gathering batch deadline, queue => p.gather i queue batch deadline
    | .writing .., _ => (p, [])

/-- The counts after a batch has returned. -/
def Tally.afterBatch (t : Tally) (size : Nat) (stored : Bool) : Tally :=
  { t with
    written := if stored then t.written + size else t.written
    failed := if stored then t.failed else t.failed + size
    batches := t.batches + 1
    failedBatches := if stored then t.failedBatches else t.failedBatches + 1
    depth := t.depth - size
    active := t.active - 1 }

/-- Takes back a worker's batch from the backend. -/
def finish (p : Pool) (i : Nat) (stored : Bool) : Pool × List Effect :=
  match p.workers[i]? with
  | some ⟨queue, .writing batch _⟩ =>
    ({ p with
        room := (p.room.run (batch.map fun (x : Item) => .release x.ticket)).1
        pending := p.pending - batch.length
        tally := p.tally.afterBatch batch.length stored
        meter := if stored then p.meter.mark batch.length p.now else p.meter }.setWorker i
          ⟨queue, .idle⟩,
      [.returned i batch stored])
  | _ => (p, [])

/-- Samples stored per second, about a minute's average; reading it brings the meter up to date. -/
def readRate (p : Pool) : Float × Pool :=
  let meter := p.meter.advance p.now
  (meter.rate, { p with meter })

/-! ## Runs -/

/-- What can happen to a pool. -/
inductive Event
  | call (request : Request)
  | poll (call : Ticket)
  | abandon (call : Ticket)
  | work (worker : Nat)
  | finish (worker : Nat) (stored : Bool)
  | advance (time : Nat)
  deriving DecidableEq

/-- One event, with the effects it has in order. -/
def step (p : Pool) : Event → Pool × List Effect
  | .call request => p.call request
  | .poll c => p.poll c
  | .abandon c => (p.abandon c, [])
  | .work i => p.work i
  | .finish i stored => p.finish i stored
  | .advance time => ({ p with now := p.now + time }, [])

/-- A run of events, with all effects in order. -/
def run (p : Pool) : List Event → Pool × List Effect
  | [] => (p, [])
  | e :: rest =>
    let (p, first) := p.step e
    let (p, later) := p.run rest
    (p, first ++ later)

/-- Whether neither a worker nor a waiting call can go on. -/
def Settled (p : Pool) : Prop :=
  (∀ i, p.work i = (p, [])) ∧ ∀ c, p.poll c = (p, [])

end Pool

end Historian
