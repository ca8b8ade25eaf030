import Historian.Proofs.Queue.Calls

/-!
# What a pool has counted

The counters of a pool are updated one by one, each where something happens.  Together they say
exactly what has become of the samples, in every state that a run can reach.

* `Pool.step_tally` — an event counts what its effects say, and nothing else.
* `Pool.Tallied`, `Pool.Tallied.step` — the counters agree with each other, with the workers and with
  the history.
* `Pool.run_accounts` — what follows for every run, and what follows when the pool has settled: then
  the places held are those of the pending samples, and a save only waits while all are taken.
-/

set_option autoImplicit false

namespace Historian.Pool

variable {p q : Pool}

/-! ## Counting effects -/

/-- The counts after an effect has been seen. -/
def Tally.see (t : Tally) : Effect → Tally
  | .answered _ .queued => { t with enqueued := t.enqueued + 1, depth := t.depth + 1 }
  | .answered _ .dropped => { t with dropped := t.dropped + 1 }
  | .answered _ (.failed (.backpressure _)) => { t with rejected := t.rejected + 1 }
  | .answered .. => t
  | .handedOver .. => { t with active := t.active + 1 }
  | .returned _ batch stored => t.afterBatch batch.length stored

/-- An answer that accepts nothing leaves the samples pending and the batches alone. -/
theorem Tally.see_answered (t : Tally) (n : Ticket) {o : Outcome} (ho : o ≠ .queued) :
    t.see (.answered n o) =
      { t with dropped := (t.see (.answered n o)).dropped
               rejected := (t.see (.answered n o)).rejected } := by
  cases o with
  | queued => exact absurd rfl ho
  | failed cause => cases cause <;> rfl
  | _ => rfl

theorem call_tally (p : Pool) (request : Request) :
    (p.call request).1.tally = (p.call request).2.foldl Tally.see p.tally := by
  cases request with
  | save series sample =>
    simp only [call, save]
    rcases p.room.request p.calls with ⟨room, answers⟩
    simp only
    cases answers.lookup p.calls with
    | none => rfl
    | some answer =>
      cases answer with
      | granted => rfl
      | dropped => rfl
      | refused cause => cases cause <;> rfl
  | flush =>
    simp only [call, flush]
    split <;> rfl
  | stop =>
    simp only [call, stop]
    split <;> rfl

theorem poll_tally (p : Pool) (number : Ticket) :
    (p.poll number).1.tally = (p.poll number).2.foldl Tally.see p.tally := by
  rw [poll]
  cases p.waitingCall? number with
  | none => rfl
  | some c =>
    simp only
    cases c.request with
    | save series sample =>
      simp only
      split
      · rfl
      · split <;> rfl
    | flush =>
      simp only
      split <;> rfl
    | stop =>
      simp only
      split
      · rfl
      · split <;> rfl

/-- An event counts what its effects say. -/
theorem step_tally (p : Pool) (e : Event) :
    (p.step e).1.tally = (p.step e).2.foldl Tally.see p.tally := by
  cases e with
  | call request => exact call_tally p request
  | poll number => exact poll_tally p number
  | abandon number =>
    simp only [step, abandon]
    cases p.waitingCall? number with
    | none => rfl
    | some c => cases h : c.request <;> simp only [h] <;> rfl
  | work i =>
    simp only [step, work, gather]
    repeat' split
    all_goals rfl
  | finish i stored =>
    simp only [step, finish]
    split <;> rfl
  | advance time => rfl

/-! ## Workers at the backend -/

/-- Replacing a worker replaces the batch that it waits for. -/
theorem countP_writing_set {workers : List Worker} {i : Nat} {w : Worker}
    (hw : workers[i]? = some w) (w' : Worker) :
    (workers.set i w').countP Worker.isWriting + w.out.length =
      workers.countP Worker.isWriting + w'.out.length := by
  have hout : ∀ v : Worker, v.out.length = if v.isWriting then 1 else 0 := by
    rintro ⟨queue, activity⟩
    cases activity <;> rfl
  induction workers generalizing i with
  | nil => simp at hw
  | cons v rest ih =>
    cases i with
    | zero =>
      obtain rfl : v = w := by simpa using hw
      rw [List.set_cons_zero, List.countP_cons, List.countP_cons, hout, hout]
      omega
    | succ i =>
      have := ih (i := i) (by simpa using hw)
      rw [List.set_cons_succ, List.countP_cons, List.countP_cons]
      omega

theorem countP_writing_enqueue {workers : List Worker} {i : Nat} (hi : i < workers.length)
    (x : Item) :
    (workers.modify i (Worker.enqueue x)).countP Worker.isWriting =
      workers.countP Worker.isWriting := by
  have := countP_writing_set (List.getElem?_eq_getElem hi) (workers[i].enqueue x)
  rw [Worker.out_enqueue] at this
  rw [modify_enqueue hi]
  omega

/-! ## What the counters count -/

/-- The counters tell what has been accepted and what has come back, how many samples are pending
and how many workers wait for the backend. -/
structure Tally.Counts (t : Tally) (accepted : List Item) (returned : List (Nat × List Item × Bool))
    (pending writing : Nat) : Prop where
  enqueued_eq : t.enqueued = accepted.length
  written_eq : t.written = (storedItems returned).length
  balance : t.enqueued = t.written + t.failed + t.depth
  depth_eq : t.depth = pending
  active_eq : t.active = writing
  batches_eq : t.batches = returned.length
  failedBatches_eq : t.failedBatches = returned.countP fun x => !x.2.2

namespace Tally.Counts

variable {t : Tally} {accepted : List Item} {returned : List (Nat × List Item × Bool)}
  {pending writing : Nat}

theorem answered (h : t.Counts accepted returned pending writing) (n : Ticket) {o : Outcome}
    (ho : o ≠ .queued) : (t.see (.answered n o)).Counts accepted returned pending writing := by
  rw [t.see_answered n ho]
  exact ⟨h.enqueued_eq, h.written_eq, h.balance, h.depth_eq, h.active_eq, h.batches_eq,
    h.failedBatches_eq⟩

theorem queued (h : t.Counts accepted returned pending writing) (n : Ticket) (x : Item) :
    (t.see (.answered n .queued)).Counts (accepted ++ [x]) returned (pending + 1) writing where
  enqueued_eq := by
    rw [List.length_append, ← h.enqueued_eq]
    rfl
  written_eq := h.written_eq
  balance := congrArg (· + 1) h.balance
  depth_eq := congrArg (· + 1) h.depth_eq
  active_eq := h.active_eq
  batches_eq := h.batches_eq
  failedBatches_eq := h.failedBatches_eq

theorem batchOut (h : t.Counts accepted returned pending writing) (i : Nat) (batch : List Item) :
    (t.see (.handedOver i batch)).Counts accepted returned pending (writing + 1) where
  enqueued_eq := h.enqueued_eq
  written_eq := h.written_eq
  balance := h.balance
  depth_eq := h.depth_eq
  active_eq := congrArg (· + 1) h.active_eq
  batches_eq := h.batches_eq
  failedBatches_eq := h.failedBatches_eq

/-- A batch is taken off what is pending, so it has to be pending. -/
theorem batchBack (h : t.Counts accepted returned pending writing) (i : Nat) {batch : List Item}
    (stored : Bool) (hle : batch.length ≤ pending) :
    (t.see (.returned i batch stored)).Counts accepted (returned ++ [(i, batch, stored)])
      (pending - batch.length) (writing - 1) := by
  have hstored : (storedItems (returned ++ [(i, batch, stored)])).length =
      (storedItems returned).length + if stored then batch.length else 0 := by
    rw [storedItems, List.flatMap_append, List.length_append, List.flatMap_singleton, storedOf]
    cases stored <;> rfl
  have hbalance := h.balance
  have hdepth := h.depth_eq
  constructor
  · exact h.enqueued_eq
  · rw [hstored, ← h.written_eq]
    cases stored <;> rfl
  · cases stored <;> simp only [see, afterBatch, if_true, Bool.false_eq_true, if_false] <;> omega
  · exact congrArg (· - batch.length) h.depth_eq
  · exact congrArg (· - 1) h.active_eq
  · rw [List.length_append, ← h.batches_eq]
    rfl
  · rw [List.countP_append, ← h.failedBatches_eq]
    cases stored <;> rfl

end Tally.Counts

/-! ## Runs -/

/-- A pool whose counters fit its history. -/
structure Tallied (p : Pool) (requests : List Request) (effects : List Effect) : Prop extends
    Seated p requests effects where
  counts : p.tally.Counts (accepted requests effects) (returned effects) p.pending
    (p.workers.countP Worker.isWriting)
  /-- Every flush that waits is counted; some that are counted may have been dropped. -/
  flushes_le : p.flushing ≤ p.flushers

/-- Every move counts what it does. -/
theorem counts_move {made : List Request} {fx : List Effect} {requests : List Request}
    {effects : List Effect} (h : Tallied p requests effects) (hmove : Move p q made fx)
    (htally : q.tally = fx.foldl Tally.see p.tally) :
    q.tally.Counts (accepted (requests ++ made) (effects ++ fx)) (returned (effects ++ fx)) q.pending
      (q.workers.countP Worker.isWriting) := by
  obtain ⟨taken, htaken, hhandling⟩ := h.handling hmove
  rw [h.accepted_append, htaken, returned_append]
  cases hhandling with
  | quiet hworkers hpending =>
    have hreturned : returned [] = [] := rfl
    rw [hreturned, List.append_nil, List.append_nil, htally, hpending, hworkers]
    exact h.counts
  | refuse n o ho hworkers hpending =>
    have hreturned : returned [.answered n o] = [] := rfl
    rw [hreturned, List.append_nil, List.append_nil, htally, hpending, hworkers]
    exact h.counts.answered n ho
  | take x hworkers hpending =>
    have hreturned : returned [.answered x.ticket .queued] = [] := rfl
    have hi : p.workerOf x.series < p.workers.length :=
      h.workers_length ▸ Nat.mod_lt _ p.valid.workers_pos
    rw [hreturned, List.append_nil, htally, hpending, hworkers, countP_writing_enqueue hi]
    exact h.counts.queued x.ticket x
  | gather i w w' hw hout hout' hheld hworkers hpending =>
    have hreturned : returned [] = [] := rfl
    have hwriting := countP_writing_set hw w'
    rw [hout, hout'] at hwriting
    rw [hreturned, List.append_nil, List.append_nil, htally, hpending, hworkers,
      Nat.add_right_cancel hwriting]
    exact h.counts
  | handOver i w w' batch hw hout hout' hheld hworkers hpending =>
    have hreturned : returned [.handedOver i batch] = [] := rfl
    have hwriting := countP_writing_set hw w'
    rw [hout, hout'] at hwriting
    rw [hreturned, List.append_nil, List.append_nil, htally, hpending, hworkers,
      ← Nat.add_zero (List.countP _ _), ← List.length_nil, hwriting]
    exact h.counts.batchOut i batch
  | takeBack i w w' batch stored hw hout hout' hheld hworkers hpending =>
    have hreturned : returned [.returned i batch stored] = [(i, batch, stored)] := rfl
    have hwriting := countP_writing_set hw w'
    rw [hout, hout'] at hwriting
    have hback : batch.length ≤ p.pending := by
      have hload := load_length_le hw
      rw [Worker.load_eq, hout, List.length_append] at hload
      rw [h.pending_eq]
      exact Nat.le_trans (by simp) hload
    rw [hreturned, List.append_nil, htally, hpending, hworkers, Nat.eq_sub_of_add_eq hwriting]
    exact h.counts.batchBack i stored hback

namespace Tallied

variable {requests : List Request} {effects : List Effect}

/-- Every event keeps the counters in step with the history. -/
theorem step (h : Tallied p requests effects) (e : Event) :
    Tallied (p.step e).1 (requests ++ e.made) (effects ++ (p.step e).2) where
  toSeated := h.toSeated.step e
  counts := counts_move h (step_move p e) (step_tally p e)
  flushes_le := (p.step_waits e).flushing_le h.waiting_nodup h.flushes_le

/-- So does every run. -/
theorem run {earlier : List Request} (h : Tallied p earlier effects) (events : List Event) :
    Tallied (p.run events).1 (earlier ++ Pool.requests events) (effects ++ (p.run events).2) := by
  induction events generalizing p earlier effects with
  | nil => simpa [Pool.run, Pool.requests] using h
  | cons e rest ih => simpa [Pool.run, Pool.requests, List.append_assoc] using ih (h.step e)

end Tallied

theorem start_tallied (settings : WriterSettings) (valid : settings.Valid) (tick now : Nat) :
    Tallied (start settings valid tick now) [] [] where
  toSeated := start_seated settings valid tick now
  counts := by
    have hidle : (start settings valid tick now).workers.countP Worker.isWriting = 0 := by
      rw [List.countP_eq_zero]
      intro w hw
      rw [List.eq_of_mem_replicate hw]
      decide
    rw [hidle]
    exact ⟨rfl, rfl, rfl, rfl, rfl, rfl, rfl⟩
  flushes_le := Nat.le_refl 0

theorem run_tallied (settings : WriterSettings) (valid : settings.Valid) (tick now : Nat)
    (events : List Event) :
    Tallied ((start settings valid tick now).run events).1 (requests events)
      ((start settings valid tick now).run events).2 := by
  simpa using (start_tallied settings valid tick now).run events

/-! ## What follows -/

/-- The samples accepted whose batch has not come back, in the order of their acceptance. -/
def outstanding (requests : List Request) (effects : List Effect) : List Item :=
  (accepted requests effects).filter fun x => x ∉ returnedItems effects

/-- What a pool's counters, room and workers say about each other and about its history. -/
structure Accounts (p : Pool) (requests : List Request) (effects : List Effect) : Prop where
  enqueued_eq : p.tally.enqueued = (accepted requests effects).length
  balance : p.tally.enqueued = p.tally.written + p.tally.failed + p.tally.depth
  depth_eq : p.tally.depth = p.pending
  pending_eq : p.pending = (outstanding requests effects).length
  pending_le : p.pending ≤ p.room.inUse
  inUse_le : p.room.inUse ≤ p.settings.capacity
  active_eq : p.tally.active = p.workers.countP Worker.isWriting
  active_le : p.tally.active ≤ p.settings.workers
  batches_eq : p.tally.batches = (returned effects).length
  failedBatches_eq : p.tally.failedBatches = (returned effects).countP fun x => !x.2.2
  /-- Whatever batch comes back next, the counters that it is taken off are large enough. -/
  finish_le : ∀ (i : Nat) (queue batch : List Item) (turn : Nat),
    p.workers[i]? = some ⟨queue, .writing batch turn⟩ →
      batch.length ≤ p.pending ∧ batch.length ≤ p.tally.depth ∧ 0 < p.tally.active ∧
        ∀ x ∈ batch, x.ticket ∈ p.room.holders
  /-- So is the counter of flushes, whichever returns next. -/
  flush_pos : ∀ c ∈ p.waiting, c.request = .flush → 0 < p.flushers
  /-- Once nothing can go on, every place is that of a pending sample, and a save only waits while
  there is no other. -/
  settled : p.Settled → p.room.inUse = p.pending ∧
    ((∃ c ∈ p.waiting, c.saves = true) → p.pending = p.settings.capacity)

namespace Seated

variable {requests : List Request} {effects : List Effect}

theorem length_outstanding (h : Seated p requests effects) :
    (outstanding requests effects).length = p.pending := by
  have hnodup := h.accepted_perm.nodup_iff.1 h.accepted_nodup
  have hdisjoint := (List.nodup_append.1 hnodup).2.2
  have hback : (returnedItems effects).filter (fun x => x ∉ returnedItems effects) = [] := by
    rw [List.filter_eq_nil_iff]
    intro x hx
    simpa using hx
  have hhand : (inHand p).filter (fun x => x ∉ returnedItems effects) = inHand p := by
    rw [List.filter_eq_self]
    intro x hx
    simpa using fun hback => hdisjoint x hback x hx rfl
  have hperm := h.accepted_perm.filter fun x => x ∉ returnedItems effects
  rw [List.filter_append, hback, hhand, List.nil_append] at hperm
  rw [outstanding, hperm.length_eq, length_inHand, h.pending_eq]

/-- Each pending sample has a place of its own. -/
theorem pending_le_inUse (h : Seated p requests effects) : p.pending ≤ p.room.inUse := by
  have hle := h.nodup_inHand.length_le_of_subset h.fits.held
  rwa [List.length_map, length_inHand, ← h.pending_eq] at hle

/-- In a settled pool no save that waits has been let in. -/
theorem not_held_of_settled (h : Seated p requests effects) (hsettled : p.Settled) {c : Call}
    (hc : c ∈ p.waiting) (hsaves : c.saves = true) :
    p.isOpen = true ∧ c.number ∉ p.room.holders := by
  have hpoll := hsettled.2 c.number
  obtain ⟨series, sample, hrequest⟩ := exists_of_saves hsaves
  simp only [poll, h.waitingCall?_eq hc, hrequest] at hpoll
  split at hpoll
  · exact absurd (congrArg Prod.snd hpoll) (by simp)
  · rename_i hopen
    refine ⟨by simpa using hopen, fun hheld => ?_⟩
    rw [if_pos (List.contains_iff_mem.2 hheld)] at hpoll
    exact absurd (congrArg Prod.snd hpoll) (by simp [accept])

theorem inUse_of_settled (h : Seated p requests effects) (hsettled : p.Settled) :
    p.room.inUse = p.pending := by
  have heq := h.fits.inUse_eq h.nodup_inHand fun t ht => by
    obtain ⟨c, hc, hsaves, rfl⟩ := mem_saving.1 ht
    exact (h.not_held_of_settled hsettled hc hsaves).2
  rw [heq, List.length_map, length_inHand, h.pending_eq]

/-- In a settled pool a save that waits stands in the line. -/
theorem full_of_settled (h : Seated p requests effects) (hsettled : p.Settled) {c : Call}
    (hc : c ∈ p.waiting) (hsaves : c.saves = true) : p.room.inUse = p.settings.capacity := by
  obtain ⟨hopen, hheld⟩ := h.not_held_of_settled hsettled hc hsaves
  have hseat := h.fits.waiting_mem hopen c.number (mem_saving.2 ⟨c, hc, hsaves, rfl⟩)
  have hline := (List.mem_append.1 hseat).resolve_left hheld
  rw [← h.capacity_eq]
  exact h.fits.sound.full_of_line (List.ne_nil_of_mem hline)

end Seated

theorem Tallied.accounts {requests : List Request} {effects : List Effect}
    (h : Tallied p requests effects) : Accounts p requests effects where
  enqueued_eq := h.counts.enqueued_eq
  balance := h.counts.balance
  depth_eq := h.counts.depth_eq
  pending_eq := h.length_outstanding.symm
  pending_le := h.pending_le_inUse
  inUse_le := h.capacity_eq ▸ h.fits.sound.inUse_le
  active_eq := h.counts.active_eq
  active_le := by
    rw [h.counts.active_eq, ← h.workers_length]
    exact List.countP_le_length
  batches_eq := h.counts.batches_eq
  failedBatches_eq := h.counts.failedBatches_eq
  finish_le i queue batch turn hw := by
    have hmem := List.mem_of_getElem? hw
    have hle : batch.length ≤ p.pending := by
      have hload := load_length_le hw
      rw [Worker.load, List.length_append] at hload
      rw [h.pending_eq]
      exact Nat.le_trans (Nat.le_add_right ..) hload
    refine ⟨hle, h.counts.depth_eq ▸ hle, ?_, fun x hx => h.fits.held _ (List.mem_map_of_mem ?_)⟩
    · rw [h.counts.active_eq, List.countP_pos_iff]
      exact ⟨_, hmem, rfl⟩
    · exact List.mem_flatMap.2 ⟨_, hmem, List.mem_append_left _ hx⟩
  flush_pos c hc hrequest := Nat.lt_of_lt_of_le (flushing_pos hc hrequest) h.flushes_le
  settled hsettled := by
    refine ⟨h.inUse_of_settled hsettled, ?_⟩
    rintro ⟨c, hc, hsaves⟩
    rw [← h.inUse_of_settled hsettled]
    exact h.full_of_settled hsettled hc hsaves

/-- After every run of a pool its counters are exact. -/
theorem run_accounts (settings : WriterSettings) (valid : settings.Valid) (tick now : Nat)
    (events : List Event) :
    Accounts ((start settings valid tick now).run events).1 (requests events)
      ((start settings valid tick now).run events).2 :=
  (run_tallied settings valid tick now events).accounts

/-- Two workers and a batch that was lost: one sample is at the backend, one still waits for its
batch to fill, and there is no place for a third. -/
theorem run_accounts_two_workers :
    let settings : WriterSettings := ⟨2, 2, 100, 2, .block⟩
    let sample (t : Timestamp) : Sample := ⟨t, .flag true, none⟩
    let events : List Event := [.call (.save 0 (sample 5)), .call (.save 1 (sample 5)), .work 0,
      .work 1, .advance 100, .work 0, .work 1, .finish 0 false, .call (.save 0 (sample 6)),
      .call (.save 1 (sample 6)), .work 0]
    ∃ valid : settings.Valid,
      let r := (start settings valid 5000 0).run events
      r.1.Settled ∧ r.1.waiting.map Call.number = [3] ∧ r.1.room.inUse = 2 ∧
        r.1.tally = ⟨3, 0, 0, 0, 1, 1, 1, 2, 1⟩ ∧ Accounts r.1 (requests events) r.2 := by
  refine ⟨⟨by decide, by decide, by decide, by decide, by decide⟩, ⟨fun i => ?_, fun c => ?_⟩,
    by decide, by decide, by decide, run_accounts _ _ _ _ _⟩
  · match i with
    | 0 => rfl
    | 1 => rfl
    | _ + 2 => rfl
  · match c with
    | 0 => rfl
    | 1 => rfl
    | 2 => rfl
    | 3 => rfl
    | _ + 4 => rfl

end Historian.Pool
