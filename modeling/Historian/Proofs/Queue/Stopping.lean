import Historian.Proofs.Queue.Answers

/-!
# Stopping a pool

The first stop closes a pool, and returns with success once no worker has anything left to do.
Later stops find the pool closed and return with success at once, whatever is still pending.

* `Pool.closed_step` — a closed pool without anything to do stays so, and hands nothing over.
* `Pool.Halting`, `Pool.Halting.step` — what stops leave behind, kept by every event.
* `Pool.run_stopped_iff` — when a successful stop has seen everything through: the first one always,
  a later one exactly if nothing was pending when it was made.
-/

set_option autoImplicit false

namespace Historian.Pool

variable {p q : Pool}

/-! ## Pools without anything to do -/

theorem Worker.isDone_iff (w : Worker) : w.isDone = true ↔ w = .fresh := by
  obtain ⟨queue, activity⟩ := w
  cases queue <;> cases activity <;> simp [isDone, fresh]

theorem isDrained_iff : p.isDrained = true ↔ ∀ w ∈ p.workers, w = .fresh := by
  simp only [isDrained, List.all_eq_true, Worker.isDone_iff]

theorem inHands_of_drained (h : p.isDrained = true) : inHands p.workers = 0 := by
  rw [List.eq_replicate_of_mem (isDrained_iff.1 h)]
  exact inHands_fresh _

/-- No worker holds a batch without a sample. -/
def Filled (p : Pool) : Prop := ∀ w ∈ p.workers, w.activity ≠ .idle → w.batch ≠ []

/-- With nothing pending, workers that hold no empty batch have nothing to do. -/
theorem drained_of_pending (hpending : p.pending = inHands p.workers) (hfilled : p.Filled)
    (h : p.pending = 0) : p.isDrained = true := by
  refine isDrained_iff.2 fun w hw => ?_
  obtain ⟨i, hi⟩ := List.mem_iff_getElem?.1 hw
  have hle := load_length_le hi
  have hload : w.load = [] := List.length_eq_zero_iff.1 (by omega)
  obtain ⟨hbatch, hqueue⟩ := List.append_eq_nil_iff.1 hload
  obtain ⟨queue, activity⟩ := w
  cases activity with
  | idle => rw [show queue = [] from hqueue, Worker.fresh]
  | gathering => exact absurd hbatch (hfilled _ hw (by simp))
  | writing => exact absurd hbatch (hfilled _ hw (by simp))

theorem Filled.set (h : p.Filled) {i : Nat} {w : Worker} (hworkers : q.workers = p.workers.set i w)
    (hw : w.activity ≠ .idle → w.batch ≠ []) : q.Filled := by
  intro v hv
  rw [hworkers] at hv
  rcases List.mem_or_eq_of_mem_set hv with hv | rfl
  · exact h v hv
  · exact hw

theorem Filled.enqueue (h : p.Filled) {i : Nat} {x : Item}
    (hworkers : q.workers = p.workers.modify i (Worker.enqueue x)) : q.Filled := by
  intro v hv
  obtain ⟨j, hj⟩ := List.mem_iff_getElem?.1 hv
  rw [hworkers, List.getElem?_modify] at hj
  obtain ⟨w, hw, rfl⟩ := Option.map_eq_some_iff.1 hj
  have hfilled := h w (List.mem_of_getElem? hw)
  split
  · exact hfilled
  · exact hfilled

theorem Filled.gather (h : p.Filled) (i : Nat) (queue : List Item) {batch : List Item}
    (hbatch : batch ≠ []) (deadline : Nat) : (p.gather i queue batch deadline).1.Filled := by
  simp only [Pool.gather]
  split
  · exact h.set rfl fun _ hnil => hbatch (List.append_eq_nil_iff.1 hnil).1
  · exact h.set rfl fun _ hnil => hbatch (List.append_eq_nil_iff.1 hnil).1

theorem Filled.step (h : p.Filled) (e : Event) : (p.step e).1.Filled := by
  rcases workers_cases p e with ⟨hworkers, -⟩ | ⟨i, x, n, hworkers, -⟩ | ⟨i, rfl⟩ | ⟨i, stored, rfl⟩
  · intro w hw
    exact h w (hworkers ▸ hw)
  · exact h.enqueue hworkers
  · simp only [Pool.step, work]
    cases hw : p.workers[i]? with
    | none => exact h
    | some w =>
      obtain ⟨queue, activity⟩ := w
      have hfilled := h _ (List.mem_of_getElem? hw)
      cases activity with
      | idle =>
        cases queue with
        | nil => exact h
        | cons x rest => exact h.gather i rest (by simp) _
      | gathering batch deadline => exact h.gather i queue (hfilled (by simp)) deadline
      | writing batch turn => exact h
  · simp only [Pool.step, finish]
    split
    · exact h.set rfl fun hbusy => absurd rfl hbusy
    · exact h

/-! ## Closed pools -/

theorem pending_of_closed {requests : List Request} {effects : List Effect}
    (h : CallsFollow p requests effects) (hclosed : p.isOpen = false) (hpending : p.pending = 0)
    (e : Event) : (p.step e).1.pending = 0 := by
  obtain ⟨taken, -, hhandling⟩ := h.handling (step_move p e)
  have hnot := not_queued_of_closed hclosed e
  generalize (p.step e).1 = q at hhandling
  generalize (p.step e).2 = fx at hhandling hnot
  cases hhandling with
  | quiet _ hkept => rw [hkept, hpending]
  | refuse _ _ _ _ hkept => rw [hkept, hpending]
  | take => exact absurd List.mem_cons_self (hnot _)
  | gather _ _ _ _ _ _ _ _ hkept => rw [hkept, hpending]
  | handOver _ _ _ _ _ _ _ _ _ hkept => rw [hkept, hpending]
  | takeBack _ _ _ _ _ _ _ _ _ _ hless => rw [hless, hpending, Nat.zero_sub]

theorem getElem?_of_drained (hdrained : p.isDrained = true) (i : Nat) :
    p.workers[i]? = none ∨ p.workers[i]? = some .fresh := by
  cases hw : p.workers[i]? with
  | none => exact .inl rfl
  | some w => exact .inr (congrArg some (isDrained_iff.1 hdrained w (List.mem_of_getElem? hw)))

/-- A closed pool without anything to do stays so, and hands nothing over. -/
theorem closed_step (hclosed : p.isOpen = false) (hdrained : p.isDrained = true) (e : Event) :
    (p.step e).1.isOpen = false ∧ (p.step e).1.isDrained = true ∧ handedOver (p.step e).2 = [] := by
  have hopen : (p.step e).1.isOpen = false := by
    rw [step_isOpen]
    split
    · rfl
    · exact hclosed
  refine ⟨hopen, ?_⟩
  rcases workers_cases p e with ⟨hworkers, hanswers⟩ | ⟨i, x, n, -, hfx⟩ | ⟨i, rfl⟩ |
    ⟨i, stored, rfl⟩
  · refine ⟨by rwa [isDrained, hworkers], List.filterMap_eq_nil_iff.2 fun x hx => ?_⟩
    obtain ⟨n, o, rfl⟩ := hanswers x hx
    rfl
  · exact absurd (hfx ▸ List.mem_cons_self) (not_queued_of_closed hclosed e n)
  · have hidle : p.work i = (p, []) := by
      rcases getElem?_of_drained hdrained i with hw | hw
      · rw [work, hw]
      · rw [work, hw]
        rfl
    rw [step, hidle]
    exact ⟨hdrained, rfl⟩
  · have hidle : p.finish i stored = (p, []) := by
      rcases getElem?_of_drained hdrained i with hw | hw
      · rw [finish, hw]
      · rw [finish, hw]
        rfl
    rw [step, hidle]
    exact ⟨hdrained, rfl⟩

/-- So it is in every run. -/
theorem handedOver_of_closed (events : List Event) :
    ∀ {p : Pool}, p.isOpen = false → p.isDrained = true → handedOver (p.run events).2 = [] := by
  induction events with
  | nil => exact fun _ _ => rfl
  | cons e rest ih =>
    intro p hclosed hdrained
    obtain ⟨hclosed', hdrained', hnone⟩ := closed_step hclosed hdrained e
    simp only [run, handedOver_append, hnone, ih hclosed' hdrained', List.append_nil]

/-! ## What stops leave behind -/

/-- The call is the first stop. -/
def FirstStop (requests : List Request) (n : Ticket) : Prop :=
  requests[n]? = some .stop ∧ ∀ m < n, requests[m]? ≠ some .stop

namespace FirstStop

variable {requests : List Request} {n : Ticket}

theorem lt_length (h : FirstStop requests n) : n < requests.length :=
  (List.getElem?_eq_some_iff.1 h.1).1

theorem mem (h : FirstStop requests n) : .stop ∈ requests := List.mem_of_getElem? h.1

/-- What is requested later makes no difference. -/
theorem append_iff {made : List Request} (hn : n < requests.length) :
    FirstStop (requests ++ made) n ↔ FirstStop requests n := by
  refine and_congr (by rw [List.getElem?_append_left hn]) (forall₂_congr fun m hm => ?_)
  rw [List.getElem?_append_left (Nat.lt_trans hm hn)]

theorem append (h : FirstStop requests n) (made : List Request) : FirstStop (requests ++ made) n :=
  (append_iff h.lt_length).2 h

/-- The stop that is made after no other is the first. -/
theorem concat_iff : FirstStop (requests ++ [.stop]) requests.length ↔ .stop ∉ requests := by
  have hbefore : ∀ m < requests.length, (requests ++ [.stop])[m]? = requests[m]? :=
    fun m hm => List.getElem?_append_left hm
  constructor
  · rintro ⟨-, hfirst⟩ hmem
    obtain ⟨m, hm⟩ := List.mem_iff_getElem?.1 hmem
    have hlt := (List.getElem?_eq_some_iff.1 hm).1
    exact hfirst m hlt ((hbefore m hlt).trans hm)
  · intro hnot
    refine ⟨by simp, fun m hm hstop => hnot ?_⟩
    exact List.mem_of_getElem? ((hbefore m hm).symm.trans hstop)

end FirstStop

/-- A pool that fits its history, as far as stopping is concerned. -/
structure Halting (p : Pool) (requests : List Request) (effects : List Effect) : Prop extends
    Follows p requests effects where
  filled : p.Filled
  isOpen_iff : p.isOpen = true ↔ .stop ∉ requests
  /-- Only the first stop waits. -/
  first_of_waiting : ∀ c ∈ p.waiting, c.request = .stop → FirstStop requests c.number
  /-- Its success means that nothing is pending from then on. -/
  pending_of_stopped : ∀ n, FirstStop requests n → .answered n .stopped ∈ effects → p.pending = 0

namespace Halting

variable {requests : List Request} {effects : List Effect}

theorem closed_of_mem (h : Halting p requests effects) (hstop : .stop ∈ requests) :
    p.isOpen = false :=
  eq_false_of_ne_true fun hopen => h.isOpen_iff.1 hopen hstop

theorem mem_of_closed (h : Halting p requests effects) (hclosed : p.isOpen = false) :
    .stop ∈ requests := by
  by_contra hnot
  exact absurd ((h.isOpen_iff.2 hnot).symm.trans hclosed) (by simp)

theorem isOpen_step_iff (h : Halting p requests effects) (e : Event) :
    (p.step e).1.isOpen = true ↔ .stop ∉ requests ++ e.made := by
  rw [step_isOpen, List.mem_append, not_or, ← h.isOpen_iff]
  by_cases he : e = .call .stop
  · simp [he, Event.made]
  · have hmade : .stop ∉ e.made := by
      cases e with
      | call request =>
        intro hmem
        exact he (congrArg Event.call (List.mem_singleton.1 hmem).symm)
      | _ => exact List.not_mem_nil
    simp [he, hmade]

theorem first_step (h : Halting p requests effects) (e : Event) {c : Call}
    (hc : c ∈ (p.step e).1.waiting) (hstop : c.request = .stop) :
    FirstStop (requests ++ e.made) c.number := by
  rcases (p.step_waits e).mem_cases hc with hc | ⟨rfl, hnumber, hopen⟩
  · exact (h.first_of_waiting c hc hstop).append _
  · rw [hnumber, h.calls_eq, hstop]
    exact FirstStop.concat_iff.2 (h.isOpen_iff.1 (hopen hstop))

theorem pending_step (h : Halting p requests effects) (e : Event) {n : Ticket}
    (hfirst : FirstStop (requests ++ e.made) n)
    (hanswered : .answered n .stopped ∈ effects ++ (p.step e).2) : (p.step e).1.pending = 0 := by
  rcases List.mem_append.1 hanswered with hbefore | hnow
  · have hlt : n < requests.length := h.answered_lt n (List.mem_filterMap.2 ⟨_, hbefore, rfl⟩)
    have hfirst := (FirstStop.append_iff hlt).1 hfirst
    exact pending_of_closed h.toCallsFollow (h.closed_of_mem hfirst.mem)
      (h.pending_of_stopped n hfirst hbefore) e
  · obtain ⟨r, hanswering⟩ := (step_answering hnow).1
    cases hanswering with
    | stopAgain hclosed =>
      rw [h.calls_eq] at hfirst
      exact absurd (h.mem_of_closed hclosed) (FirstStop.concat_iff.1 hfirst)
    | stopped c hc hrequest hdrained =>
      have hfirst := h.first_of_waiting c hc hrequest
      have hpending : p.pending = 0 := h.pending_eq.trans (inHands_of_drained hdrained)
      exact pending_of_closed h.toCallsFollow (h.closed_of_mem hfirst.mem) hpending _

/-- Every event keeps this. -/
theorem step (h : Halting p requests effects) (e : Event) :
    Halting (p.step e).1 (requests ++ e.made) (effects ++ (p.step e).2) where
  toFollows := h.toFollows.step e
  filled := h.filled.step e
  isOpen_iff := h.isOpen_step_iff e
  first_of_waiting _ hc hstop := h.first_step e hc hstop
  pending_of_stopped _ hfirst hanswered := h.pending_step e hfirst hanswered

/-- So does every run. -/
theorem run {earlier : List Request} (h : Halting p earlier effects) (events : List Event) :
    Halting (p.run events).1 (earlier ++ Pool.requests events) (effects ++ (p.run events).2) := by
  induction events generalizing p earlier effects with
  | nil => simpa [Pool.run, Pool.requests] using h
  | cons e rest ih => simpa [Pool.run, Pool.requests, List.append_assoc] using ih (h.step e)

end Halting

theorem start_halting (settings : WriterSettings) (valid : settings.Valid) (tick now : Nat) :
    Halting (start settings valid tick now) [] [] where
  toFollows := start_follows settings valid tick now
  filled w hw hbusy := absurd (congrArg Worker.activity (List.eq_of_mem_replicate hw)) hbusy
  isOpen_iff := by simp [isOpen, start, Room.new]
  first_of_waiting := by simp [start]
  pending_of_stopped := by simp

theorem run_halting (settings : WriterSettings) (valid : settings.Valid) (tick now : Nat)
    (events : List Event) :
    Halting ((start settings valid tick now).run events).1 (requests events)
      ((start settings valid tick now).run events).2 := by
  simpa using (start_halting settings valid tick now).run events

/-! ## Stops that return with success -/

/-- A pool has done all that it will ever do. -/
structure Concluded (p : Pool) (requests : List Request) (effects : List Effect) : Prop where
  /-- What it has accepted has been to the backend and come back. -/
  seenThrough : ∀ x ∈ accepted requests effects, SeenThrough effects x
  pending_eq : p.pending = 0
  /-- Whatever happens, nothing more is handed over. -/
  handedOver_eq : ∀ events, handedOver (p.run events).2 = []

theorem Halting.concluded {requests : List Request} {effects : List Effect}
    (h : Halting p requests effects) (hstop : .stop ∈ requests) (hpending : p.pending = 0) :
    Concluded p requests effects where
  seenThrough _ hx := h.seenThrough hpending hx
  pending_eq := hpending
  handedOver_eq events := handedOver_of_closed events (h.closed_of_mem hstop)
    (drained_of_pending h.pending_eq h.filled hpending)

/-- A stop that returns with success has seen everything through exactly if it is the first stop or
nothing was pending just before; and nothing is, once the first stop has returned with success. -/
theorem run_stopped_iff (settings : WriterSettings) (valid : settings.Valid) (tick now : Nat)
    (events : List Event) (e : Event) (n : Ticket)
    (hstopped : .answered n .stopped ∈
      (((start settings valid tick now).run events).1.step e).2) :
    let before := (start settings valid tick now).run events
    let after := (start settings valid tick now).run (events ++ [e])
    (Concluded after.1 (requests (events ++ [e])) after.2 ↔
      FirstStop (requests (events ++ [e])) n ∨ before.1.pending = 0) ∧
      ∀ m, FirstStop (requests events) m → .answered m .stopped ∈ before.2 →
        before.1.pending = 0 := by
  intro before after
  have hbefore : Halting before.1 (requests events) before.2 :=
    run_halting settings valid tick now events
  have hafter : Halting after.1 (requests (events ++ [e])) after.2 :=
    run_halting settings valid tick now (events ++ [e])
  have hrun : after = ((before.1.step e).1, before.2 ++ (before.1.step e).2) := run_concat ..
  have hrequests : requests (events ++ [e]) = requests events ++ e.made := by
    simp [requests]
  refine ⟨?_, hbefore.pending_of_stopped⟩
  rw [hrun, hrequests] at hafter ⊢
  obtain ⟨r, hanswering⟩ := (step_answering hstopped).1
  cases hanswering with
  | stopAgain hclosed =>
    have hmem := hbefore.mem_of_closed hclosed
    have hlater : ¬ FirstStop (requests events ++ [.stop]) before.1.calls := by
      rw [hbefore.calls_eq, FirstStop.concat_iff, not_not]
      exact hmem
    have hsame : (before.1.step (.call .stop)).1.pending = before.1.pending := by
      simp only [Pool.step, call, stop]
      split <;> rfl
    constructor
    · exact fun h => .inr (hsame.symm.trans h.pending_eq)
    · intro h
      exact hafter.concluded (List.mem_append_left _ hmem)
        (hsame.trans (h.resolve_left hlater))
  | stopped c hc hrequest hdrained =>
    have hfirst := (hbefore.first_of_waiting c hc hrequest).append (Event.poll c.number).made
    have hpending := hafter.pending_of_stopped _ hfirst (List.mem_append_right _ hstopped)
    exact ⟨fun _ => .inl hfirst, fun _ => hafter.concluded hfirst.mem hpending⟩

/-- Two workers at the backend when the first stop is made; one batch is lost. -/
theorem run_stopped_iff_two_workers :
    let settings : WriterSettings := ⟨2, 2, 100, 10, .block⟩
    let sample (t : Timestamp) : Sample := ⟨t, .flag true, none⟩
    let events : List Event := [.call (.save 1 (sample 5)), .call (.save 2 (sample 5)), .work 1,
      .call .stop, .work 1, .work 0, .poll 2, .finish 1 true, .finish 0 false]
    ∃ valid : settings.Valid,
      let before := (start settings valid 5000 0).run events
      let after := (start settings valid 5000 0).run (events ++ [.poll 2])
      .answered 2 .stopped ∈ (before.1.step (.poll 2)).2 ∧
        (accepted (requests events) after.2).length = 2 ∧
          Concluded after.1 (requests (events ++ [.poll 2])) after.2 := by
  exact ⟨⟨by decide, by decide, by decide, by decide, by decide⟩, by decide, by decide,
    (run_stopped_iff _ _ _ _ _ _ 2 (by decide)).1.2 (.inl ⟨rfl, by decide⟩)⟩

/-- A stop that is made while another one waits returns with success before the sample that was
accepted has been handed over. -/
theorem run_stopped_while_pending :
    let settings : WriterSettings := ⟨1, 2, 100, 4, .block⟩
    let item : Item := ⟨0, 1, ⟨5, .flag true, none⟩⟩
    let events : List Event := [.call (.save 1 item.sample), .call .stop]
    ∃ valid : settings.Valid,
      let before := (start settings valid 5000 0).run events
      let after := (start settings valid 5000 0).run (events ++ [.call .stop])
      .answered 2 .stopped ∈ (before.1.step (.call .stop)).2 ∧
        item ∈ accepted (requests events) after.2 ∧ ¬ SeenThrough after.2 item ∧
        after.1.pending = 1 ∧ handedOver (after.1.run [.work 0]).2 = [(0, [item])] := by
  intro settings item events
  refine ⟨⟨by decide, by decide, by decide, by decide, by decide⟩, by decide, by decide, ?_,
    by decide, by decide⟩
  rintro ⟨i, batch, stored, hhanded, -⟩
  exact absurd (List.ne_nil_of_mem hhanded) (by decide)

end Historian.Pool
