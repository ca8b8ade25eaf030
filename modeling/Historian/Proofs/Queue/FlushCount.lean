import Historian.Proofs.Queue.Accounting

/-!
# What the counter of flushes says

Workers do not keep a batch open while the counter of flushes is above zero.  A flush that waits is
counted, and takes itself back when it returns; one that is dropped while it waits stays counted.

* `Pool.run_flushers` — the counter is the flushes that wait and those that have been dropped, by
  induction on the events.
* `Pool.work_handsOver_iff` — when a worker that goes on hands its batch over.
* `Pool.run_countsFlushes_iff` — the counter is exact just if no flush has been dropped.
-/

set_option autoImplicit false

namespace Historian.Pool

variable {p : Pool} {requests : List Request} {effects : List Effect}

/-! ## Flushes that wait, and flushes that are dropped -/

/-- How many flushes are dropped in the course of a run. -/
def droppedIn (p : Pool) : List Event → Nat
  | [] => 0
  | e :: rest => p.droppedBy e + (p.step e).1.droppedIn rest

/-- The counter is the flushes in progress and those that have been dropped. -/
theorem Follows.flushers_run (hfollows : Follows p requests effects) {k : Nat}
    (h : p.flushers = p.flushing + k) (events : List Event) :
    (p.run events).1.flushers = (p.run events).1.flushing + (k + p.droppedIn events) := by
  induction events generalizing p requests effects k with
  | nil => exact h
  | cons e rest ih =>
    have hstep := (p.step_waits e).flushers_eq hfollows.waiting_nodup h
    rw [droppedIn, ← Nat.add_assoc k]
    exact ih (hfollows.step e) hstep

theorem run_flushers (settings : WriterSettings) (valid : settings.Valid) (tick now : Nat)
    (events : List Event) :
    let p := ((start settings valid tick now).run events).1
    p.flushers = p.flushing + (start settings valid tick now).droppedIn events := by
  have h : (start settings valid tick now).flushers = (start settings valid tick now).flushing + 0 := rfl
  have hrun := (start_follows settings valid tick now).flushers_run h events
  rwa [Nat.zero_add] at hrun

/-! ## Batches that are kept open -/

/-- The batch that a worker has when it goes on and takes up what is in its queue, and the time until
which the batch may be kept open. -/
def filled (p : Pool) (w : Worker) : Option (List Item × Nat) :=
  match w.activity, w.queue with
  | .idle, [] => none
  | .idle, x :: rest =>
    some (x :: rest.take (p.settings.maxBatch - 1), p.now + p.settings.maxDelay)
  | .gathering batch deadline, queue =>
    some (batch ++ queue.take (p.settings.maxBatch - batch.length), deadline)
  | .writing .., _ => none

theorem gather_handsOver_iff (i : Nat) (queue batch : List Item) (deadline : Nat) :
    (p.gather i queue batch deadline).2 =
        [.handedOver i (batch ++ queue.take (p.settings.maxBatch - batch.length))] ↔
      p.mustHandOver (batch ++ queue.take (p.settings.maxBatch - batch.length)) deadline = true := by
  simp only [gather]
  split
  · next h => simp [h]
  · next h => simp [h]

/-- A worker that goes on hands its batch over or keeps it open. -/
theorem work_handsOver_iff {i : Nat} {w : Worker} {batch : List Item} {deadline : Nat}
    (hw : p.workers[i]? = some w) (hfilled : p.filled w = some (batch, deadline)) :
    (p.work i).2 = [.handedOver i batch] ↔ p.mustHandOver batch deadline = true := by
  obtain ⟨queue, activity⟩ := w
  simp only [work, hw]
  cases activity with
  | idle =>
    cases queue with
    | nil => cases hfilled
    | cons x rest =>
      cases hfilled
      exact gather_handsOver_iff i rest [x] _
  | gathering b t =>
    cases hfilled
    exact gather_handsOver_iff i queue b _
  | writing b turn => cases hfilled

/-- The counter is the flushes in progress; and while there are none an open pool keeps a batch open
until it is full or its time has come. -/
structure CountsFlushes (p : Pool) : Prop where
  flushers_eq : p.flushers = p.flushing
  keepsOpen : p.isOpen = true → p.flushing = 0 → ∀ i w batch deadline,
    p.workers[i]? = some w → p.filled w = some (batch, deadline) →
      ((p.work i).2 = [.handedOver i batch] ↔
        p.settings.maxBatch ≤ batch.length ∨ deadline ≤ p.now)

theorem countsFlushes_of_eq (h : p.flushers = p.flushing) : CountsFlushes p where
  flushers_eq := h
  keepsOpen hopen hnone i w batch deadline hw hfilled := by
    rw [work_handsOver_iff hw hfilled]
    simp [mustHandOver, hopen, h, hnone]

/-- After a run the flushes are counted exactly just if none has been dropped while it waited. -/
theorem run_countsFlushes_iff (settings : WriterSettings) (valid : settings.Valid) (tick now : Nat)
    (events : List Event) :
    CountsFlushes ((start settings valid tick now).run events).1 ↔
      (start settings valid tick now).droppedIn events = 0 := by
  have hcount := run_flushers settings valid tick now events
  constructor
  · intro h
    have := h.flushers_eq
    omega
  · intro hnone
    exact countsFlushes_of_eq (by rw [hcount, hnone, Nat.add_zero])

/-- A save is dropped while it waits for a place, and a flush goes on waiting. -/
theorem run_countsFlushes_iff_dropped_save :
    let settings : WriterSettings := ⟨1, 2, 100, 2, .block⟩
    let sample (t : Timestamp) : Sample := ⟨t, .flag true, none⟩
    let events : List Event := [.call (.save 1 (sample 5)), .call (.save 1 (sample 6)),
      .call (.save 1 (sample 7)), .call .flush, .abandon 2, .work 0]
    ∃ valid : settings.Valid,
      let p := ((start settings valid 5000 0).run events).1
      (start settings valid 5000 0).droppedIn events = 0 ∧ p.flushing = 1 ∧ CountsFlushes p := by
  exact ⟨⟨by decide, by decide, by decide, by decide, by decide⟩, by decide, by decide,
    (run_countsFlushes_iff _ _ _ _ _).2 (by decide)⟩

/-- A flush is dropped while it waits for a sample.  The sample is written, and no flush is in
progress any more; but the next sample, which might wait for others, is handed over at once. -/
theorem run_countsFlushes_dropped :
    let settings : WriterSettings := ⟨1, 10, 100, 20, .block⟩
    let item : Item := ⟨2, 1, ⟨6, .flag true, none⟩⟩
    let events : List Event := [.call (.save 1 ⟨5, .flag true, none⟩), .call .flush, .abandon 1,
      .work 0, .finish 0 true, .advance 1000, .call (.save 1 item.sample)]
    ∃ valid : settings.Valid,
      let p := ((start settings valid 5000 0).run events).1
      p.waiting = [] ∧ p.flushing = 0 ∧ p.flushers = 1 ∧ p.isOpen = true ∧
        (p.work 0).2 = [.handedOver 0 [item]] ∧ ¬ CountsFlushes p := by
  intro settings item events
  refine ⟨⟨by decide, by decide, by decide, by decide, by decide⟩, by decide, by decide, by decide,
    by decide, by decide, fun h => ?_⟩
  exact absurd h.flushers_eq (by decide)

end Historian.Pool
