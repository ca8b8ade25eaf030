import Historian.Queue.Pool

/-!
# What an event does to a pool

`Pool.Move p q made effects` lists all that one event can do to the calls, the workers and the
number of samples pending, together with the request it makes, if any, and the effects seen from
outside.  Proofs about runs go through these cases and do not look into the events again.

* `Pool.step_move` — every event is one of these moves.
* `Pool.workers_cases` — which events change the workers, and how.
* `Pool.step_settings` — no event changes the settings.
-/

set_option autoImplicit false

namespace Historian.Pool

namespace Worker

/-- The samples that the worker has not handed over, in order. -/
def held (w : Worker) : List Item :=
  match w.activity with
  | .gathering batch _ => batch ++ w.queue
  | _ => w.queue

/-- The batch that the worker waits for, if there is one. -/
def out (w : Worker) : List (List Item) :=
  match w.activity with
  | .writing batch _ => [batch]
  | _ => []

@[simp] theorem held_idle (queue : List Item) : held ⟨queue, .idle⟩ = queue := rfl

@[simp] theorem held_gathering (queue batch : List Item) (deadline : Nat) :
    held ⟨queue, .gathering batch deadline⟩ = batch ++ queue := rfl

@[simp] theorem held_writing (queue batch : List Item) (turn : Nat) :
    held ⟨queue, .writing batch turn⟩ = queue := rfl

/-- The worker with one more sample in its queue. -/
def enqueue (x : Item) (w : Worker) : Worker := { w with queue := w.queue ++ [x] }

theorem load_eq (w : Worker) : w.load = w.out.flatten ++ w.held := by
  obtain ⟨queue, activity⟩ := w
  cases activity <;> simp [load, batch, out, held]

@[simp] theorem held_enqueue (x : Item) (w : Worker) : (w.enqueue x).held = w.held ++ [x] := by
  obtain ⟨queue, activity⟩ := w
  cases activity <;> simp [held, enqueue]

@[simp] theorem out_enqueue (x : Item) (w : Worker) : (w.enqueue x).out = w.out := rfl

end Worker

/-- The moves of a pool: `made` is the request that the event makes. -/
inductive Move (p q : Pool) : (made : List Request) → List Effect → Prop
  /-- Nothing that concerns calls or samples. -/
  | quiet (hcalls : q.calls = p.calls) (hwaiting : q.waiting = p.waiting)
      (hworkers : q.workers = p.workers) (hpending : q.pending = p.pending) : Move p q [] []
  /-- A call is made and waits. -/
  | park (r : Request) (hcalls : q.calls = p.calls + 1)
      (hwaiting : q.waiting = p.waiting ++ [⟨p.calls, r, p.now⟩])
      (hworkers : q.workers = p.workers) (hpending : q.pending = p.pending) : Move p q [r] []
  /-- A call is made and answered, without a sample being accepted. -/
  | answer (r : Request) (o : Outcome) (ho : o ≠ .queued) (hcalls : q.calls = p.calls + 1)
      (hwaiting : q.waiting = p.waiting) (hworkers : q.workers = p.workers)
      (hpending : q.pending = p.pending) : Move p q [r] [.answered p.calls o]
  /-- A call is made and its sample accepted. -/
  | accept (series : SeriesId) (sample : Sample) (hcalls : q.calls = p.calls + 1)
      (hwaiting : q.waiting = p.waiting)
      (hworkers : q.workers =
        p.workers.modify (p.workerOf series) (Worker.enqueue ⟨p.calls, series, sample⟩))
      (hpending : q.pending = p.pending + 1) :
      Move p q [.save series sample] [.answered p.calls .queued]
  /-- A waiting call is dropped. -/
  | leave (c : Call) (hc : c ∈ p.waiting) (hcalls : q.calls = p.calls)
      (hwaiting : q.waiting = p.waiting.filter fun d => d.number != c.number)
      (hworkers : q.workers = p.workers) (hpending : q.pending = p.pending) : Move p q [] []
  /-- A waiting call is answered, without a sample being accepted. -/
  | settle (c : Call) (hc : c ∈ p.waiting) (o : Outcome) (ho : o ≠ .queued)
      (hcalls : q.calls = p.calls)
      (hwaiting : q.waiting = p.waiting.filter fun d => d.number != c.number)
      (hworkers : q.workers = p.workers) (hpending : q.pending = p.pending) :
      Move p q [] [.answered c.number o]
  /-- The sample of a waiting call is accepted. -/
  | acceptWaiting (c : Call) (hc : c ∈ p.waiting) (series : SeriesId) (sample : Sample)
      (hrequest : c.request = .save series sample) (hcalls : q.calls = p.calls)
      (hwaiting : q.waiting = p.waiting.filter fun d => d.number != c.number)
      (hworkers : q.workers =
        p.workers.modify (p.workerOf series) (Worker.enqueue ⟨c.number, series, sample⟩))
      (hpending : q.pending = p.pending + 1) : Move p q [] [.answered c.number .queued]
  /-- A worker fills its batch from its queue. -/
  | gather (i : Nat) (w w' : Worker) (hw : p.workers[i]? = some w) (hout : w.out = [])
      (hout' : w'.out = []) (hheld : w'.held = w.held) (hcalls : q.calls = p.calls)
      (hwaiting : q.waiting = p.waiting) (hworkers : q.workers = p.workers.set i w')
      (hpending : q.pending = p.pending) : Move p q [] []
  /-- A worker hands over the first samples that it holds. -/
  | handOver (i : Nat) (w w' : Worker) (batch : List Item) (hw : p.workers[i]? = some w)
      (hout : w.out = []) (hout' : w'.out = [batch]) (hheld : w.held = batch ++ w'.held)
      (hcalls : q.calls = p.calls) (hwaiting : q.waiting = p.waiting)
      (hworkers : q.workers = p.workers.set i w') (hpending : q.pending = p.pending) :
      Move p q [] [.handedOver i batch]
  /-- The batch of a worker comes back. -/
  | takeBack (i : Nat) (w w' : Worker) (batch : List Item) (stored : Bool)
      (hw : p.workers[i]? = some w) (hout : w.out = [batch]) (hout' : w'.out = [])
      (hheld : w'.held = w.held) (hcalls : q.calls = p.calls) (hwaiting : q.waiting = p.waiting)
      (hworkers : q.workers = p.workers.set i w')
      (hpending : q.pending = p.pending - batch.length) : Move p q [] [.returned i batch stored]

/-- The request that an event makes, if any. -/
def Event.made : Event → List Request
  | .call request => [request]
  | _ => []

variable {p : Pool}

theorem call_move (request : Request) : Move p (p.call request).1 [request] (p.call request).2 := by
  cases request with
  | save series sample =>
    simp only [call, save]
    rcases hrequest : p.room.request p.calls with ⟨room, answers⟩
    simp only
    cases answers.lookup p.calls with
    | none => exact .park _ rfl rfl rfl rfl
    | some answer =>
      cases answer with
      | granted => exact .accept series sample rfl rfl rfl rfl
      | dropped => exact .answer _ _ (by simp) rfl rfl rfl rfl
      | refused cause => exact .answer _ _ (by simp) rfl rfl rfl rfl
  | flush =>
    simp only [call, flush]
    split
    · exact .answer _ _ (by simp) rfl rfl rfl rfl
    · exact .park _ rfl rfl rfl rfl
  | stop =>
    simp only [call, stop]
    split
    · exact .park _ rfl rfl rfl rfl
    · exact .answer _ _ (by simp) rfl rfl rfl rfl

theorem poll_move (number : Ticket) : Move p (p.poll number).1 [] (p.poll number).2 := by
  rw [poll]
  cases hfind : p.waitingCall? number with
  | none => exact .quiet rfl rfl rfl rfl
  | some c =>
    have hc : c ∈ p.waiting := List.mem_of_find?_eq_some hfind
    obtain rfl : c.number = number := by simpa using List.find?_some hfind
    simp only
    cases hrequest : c.request with
    | save series sample =>
      simp only
      split
      · exact .settle c hc _ (by simp) rfl rfl rfl rfl
      · split
        · exact .acceptWaiting c hc series sample hrequest rfl rfl rfl rfl
        · exact .quiet rfl rfl rfl rfl
    | flush =>
      simp only
      split
      · exact .settle c hc _ (by simp) rfl rfl rfl rfl
      · exact .quiet rfl rfl rfl rfl
    | stop =>
      simp only
      split
      · exact .settle c hc _ (by simp) rfl rfl rfl rfl
      · split
        · exact .settle c hc _ (by simp) rfl rfl rfl rfl
        · exact .quiet rfl rfl rfl rfl

theorem abandon_move (number : Ticket) : Move p (p.abandon number) [] [] := by
  rw [abandon]
  cases hfind : p.waitingCall? number with
  | none => exact .quiet rfl rfl rfl rfl
  | some c =>
    have hc : c ∈ p.waiting := List.mem_of_find?_eq_some hfind
    obtain rfl : c.number = number := by simpa using List.find?_some hfind
    simp only
    cases c.request <;> exact .leave c hc rfl rfl rfl rfl

/-- Filling a batch from the queue keeps what the worker holds, in order. -/
theorem gather_move {i : Nat} {w : Worker} (hw : p.workers[i]? = some w) (hout : w.out = [])
    {queue batch : List Item} (hheld : w.held = batch ++ queue) (deadline : Nat) :
    Move p (p.gather i queue batch deadline).1 [] (p.gather i queue batch deadline).2 := by
  have hsplit := List.take_append_drop (p.settings.maxBatch - batch.length) queue
  simp only [gather]
  split
  · refine .handOver i w _ _ hw hout rfl ?_ rfl rfl rfl rfl
    rw [hheld, Worker.held_writing, List.append_assoc, hsplit]
  · refine .gather i w _ hw hout rfl ?_ rfl rfl rfl rfl
    rw [hheld, Worker.held_gathering, List.append_assoc, hsplit]

theorem work_move (i : Nat) : Move p (p.work i).1 [] (p.work i).2 := by
  rw [work]
  cases hw : p.workers[i]? with
  | none => exact .quiet rfl rfl rfl rfl
  | some w =>
    obtain ⟨queue, activity⟩ := w
    cases activity with
    | idle =>
      cases queue with
      | nil => exact .quiet rfl rfl rfl rfl
      | cons x rest => exact gather_move hw rfl rfl _
    | gathering batch deadline => exact gather_move hw rfl rfl _
    | writing batch turn => exact .quiet rfl rfl rfl rfl

theorem finish_move (i : Nat) (stored : Bool) :
    Move p (p.finish i stored).1 [] (p.finish i stored).2 := by
  rw [finish]
  cases hw : p.workers[i]? with
  | none => exact .quiet rfl rfl rfl rfl
  | some w =>
    obtain ⟨queue, activity⟩ := w
    cases activity with
    | idle => exact .quiet rfl rfl rfl rfl
    | gathering => exact .quiet rfl rfl rfl rfl
    | writing batch turn =>
      exact .takeBack i _ ⟨queue, .idle⟩ batch stored hw rfl rfl rfl rfl rfl rfl rfl

/-- Every event is a move. -/
theorem step_move (p : Pool) (e : Event) : Move p (p.step e).1 e.made (p.step e).2 := by
  cases e with
  | call request => exact call_move request
  | poll number => exact poll_move number
  | abandon number => exact abandon_move number
  | work i => exact work_move i
  | finish i stored => exact finish_move i stored
  | advance time => exact .quiet rfl rfl rfl rfl

/-- Only a worker that goes on and a batch that comes back change what a worker is doing; besides,
samples that are accepted join the queues. -/
theorem workers_cases (p : Pool) (e : Event) :
    ((p.step e).1.workers = p.workers ∧ ∀ x ∈ (p.step e).2, ∃ n o, x = .answered n o) ∨
    (∃ i x n, (p.step e).1.workers = p.workers.modify i (Worker.enqueue x) ∧
      (p.step e).2 = [.answered n .queued]) ∨
    (∃ i, e = .work i) ∨ ∃ i stored, e = .finish i stored := by
  cases e with
  | call request =>
    have hmove : Move p (p.call request).1 [request] (p.call request).2 := call_move request
    simp only [step]
    generalize (p.call request).1 = q at hmove
    generalize (p.call request).2 = fx at hmove
    cases hmove with
    | park _ _ _ hworkers => exact .inl ⟨hworkers, by simp⟩
    | answer _ _ _ _ _ hworkers => exact .inl ⟨hworkers, by simp⟩
    | accept _ _ _ _ hworkers => exact .inr (.inl ⟨_, _, _, hworkers, rfl⟩)
  | poll number =>
    simp only [step, poll]
    cases p.waitingCall? number with
    | none => exact .inl ⟨rfl, by simp⟩
    | some c =>
      simp only
      cases c.request with
      | save series sample =>
        simp only
        split
        · exact .inl ⟨rfl, by simp⟩
        · split
          · exact .inr (.inl ⟨_, _, _, rfl, rfl⟩)
          · exact .inl ⟨rfl, by simp⟩
      | flush =>
        simp only
        split <;> exact .inl ⟨rfl, by simp⟩
      | stop =>
        simp only
        split
        · exact .inl ⟨rfl, by simp⟩
        · split <;> exact .inl ⟨rfl, by simp⟩
  | abandon number =>
    refine .inl ⟨?_, by simp [step]⟩
    simp only [step, abandon]
    cases p.waitingCall? number with
    | none => rfl
    | some c =>
      simp only
      cases c.request <;> rfl
  | work i => exact .inr (.inr (.inl ⟨i, rfl⟩))
  | finish i stored => exact .inr (.inr (.inr ⟨i, stored, rfl⟩))
  | advance time => exact .inl ⟨rfl, by simp [step]⟩

/-- No event changes the settings. -/
theorem step_settings (p : Pool) (e : Event) : (p.step e).1.settings = p.settings := by
  cases e with
  | call request =>
    cases request <;> simp only [step, call, save, flush, stop] <;> split <;> rfl
  | poll number =>
    simp only [step, poll]
    repeat' split
    all_goals rfl
  | abandon number =>
    simp only [step, abandon]
    repeat' split
    all_goals rfl
  | work i =>
    simp only [step, work, gather]
    repeat' split
    all_goals rfl
  | finish i stored =>
    simp only [step, finish]
    split <;> rfl
  | advance time => rfl

end Historian.Pool
