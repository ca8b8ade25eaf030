import Historian.Proofs.Queue.Accounting
import Historian.Proofs.Queue.Stopping
import Mathlib.Data.List.Induction

/-!
# How saves end

A save ends once, in one of four ways, and only being accepted puts its sample into the pool.

* `Pool.SaveEnds` — the four ways, with what each of them leaves behind.
* `Pool.step_policy` — the room keeps to the policy it was made with.
* `Pool.saveEnds` — whatever answers a save ends it in one of these ways.
* `Pool.run_saves` — what follows for every run: a sample that was not accepted reaches no backend and
  has no place, and once the pool is being stopped every save is refused.
-/

set_option autoImplicit false

namespace Historian

/-! ## The policy of a room -/

namespace Room

@[simp] theorem policy_serve (r : Room) : r.serve.1.policy = r.policy := by
  unfold serve
  split <;> rfl

theorem policy_release (r : Room) (t : Ticket) : (r.release t).1.policy = r.policy :=
  policy_serve _

theorem policy_releases (ts : List Ticket) (r : Room) :
    (r.run (ts.map .release)).1.policy = r.policy := by
  rw [run_fst]
  induction ts generalizing r with
  | nil => rfl
  | cons t rest ih => exact (ih _).trans (policy_release r t)

end Room

namespace Pool

variable {p q : Pool} {requests : List Request} {effects : List Effect}

theorem Seating.policy_eq (h : Seating p q) : q.room.policy = p.room.policy := by
  cases h with
  | keep hroom => rw [hroom]
  | grant _ _ _ _ hroom => rw [hroom]
  | wait _ _ hroom => rw [hroom]
  | takeUp _ _ _ hroom => rw [hroom]
  | leave t _ hroom =>
    rw [hroom, leaveRoom]
    dsimp only
    split
    · exact Room.policy_release p.room t
    · rfl
  | close hroom => rw [hroom, Room.close]
  | free batch hroom => rw [hroom, Room.policy_releases]

/-- The settings of a pool, and the policy of its room, are those that it was started with. -/
theorem run_settings (settings : WriterSettings) (valid : settings.Valid) (tick now : Nat)
    (events : List Event) :
    ((start settings valid tick now).run events).1.settings = settings ∧
      ((start settings valid tick now).run events).1.room.policy = settings.overflow := by
  induction events using List.reverseRecOn with
  | nil => exact ⟨rfl, rfl⟩
  | append_singleton before e ih =>
    have hseating := step_seating (run_follows settings valid tick now before) e
    rw [run_concat]
    exact ⟨(step_settings _ e).trans ih.1, hseating.policy_eq.trans ih.2⟩

/-! ## The ways in which saves end -/

/-- How save number `n`, made with a sample of a series, ends by an event that takes a pool of these
settings from `p` to `q`. -/
inductive SaveEnds (settings : WriterSettings) (p q : Pool) (n : Ticket) (series : SeriesId)
    (sample : Sample) : Outcome → Prop
  /-- The sample joins the queue of its worker. -/
  | accepted (hopen : p.isOpen = true)
      (htally : q.tally =
        { p.tally with enqueued := p.tally.enqueued + 1, depth := p.tally.depth + 1 })
      (hpending : q.pending = p.pending + 1)
      (hworkers : q.workers =
        p.workers.modify (p.workerOf series) (Worker.enqueue ⟨n, series, sample⟩)) :
      SaveEnds settings p q n series sample .queued
  /-- The sample is discarded for want of room; to its caller it has been saved. -/
  | dropped (hopen : p.isOpen = true) (hpolicy : settings.overflow = .dropNewest)
      (hfull : p.room.inUse = settings.capacity)
      (hq : q = { p with
        calls := p.calls + 1, tally := { p.tally with dropped := p.tally.dropped + 1 } }) :
      SaveEnds settings p q n series sample .dropped
  | rejected (hopen : p.isOpen = true) (hpolicy : settings.overflow = .reject)
      (hfull : p.room.inUse = settings.capacity)
      (hq : q = { p with
        calls := p.calls + 1, tally := { p.tally with rejected := p.tally.rejected + 1 } }) :
      SaveEnds settings p q n series sample (.failed (.queueFull settings.capacity))
  /-- The pool is closed. -/
  | refused (hclosed : p.isOpen = false) (htally : q.tally = p.tally)
      (hpending : q.pending = p.pending) (hworkers : q.workers = p.workers) :
      SaveEnds settings p q n series sample (.failed .queueClosed)

/-- A room without a place for one more ticket is full. -/
theorem Seated.inUse_eq_of_full (h : Seated p requests effects)
    (hfull : ¬ (p.room.inUse < p.room.capacity ∧ p.room.line = [])) :
    p.room.inUse = p.settings.capacity := by
  rw [← h.capacity_eq]
  by_cases hline : p.room.line = []
  · exact Nat.le_antisymm h.fits.sound.inUse_le (Nat.le_of_not_lt fun hlt => hfull ⟨hlt, hline⟩)
  · exact h.fits.sound.full_of_line hline

/-- Whatever answers a save ends it in one of these ways. -/
theorem saveEnds (h : Seated p requests effects) (hpolicy : p.room.policy = p.settings.overflow)
    {e : Event} {n : Ticket} {series : SeriesId} {sample : Sample} {o : Outcome}
    (hanswering : Answering p e n (.save series sample) o) :
    SaveEnds p.settings p (p.step e).1 n series sample o := by
  cases hanswering with
  | accept _ _ hopen hfree =>
    simp only [step, call, save, Room.request_of_free hopen hfree, List.lookup_cons_self]
    exact .accepted hopen rfl rfl rfl
  | drop _ _ hopen hfull hdrops =>
    have hrequest := Room.request_of_full hopen hfull p.calls
    rw [hdrops] at hrequest
    simp only [step, call, save, hrequest, List.lookup_cons_self]
    exact .dropped hopen (hpolicy ▸ hdrops) (h.inUse_eq_of_full hfull) rfl
  | reject _ _ hopen hfull hrejects =>
    have hrequest := Room.request_of_full hopen hfull p.calls
    rw [hrejects] at hrequest
    simp only [step, call, save, hrequest, List.lookup_cons_self, h.capacity_eq]
    exact .rejected hopen (hpolicy ▸ hrejects) (h.inUse_eq_of_full hfull) rfl
  | refuse _ _ hclosed =>
    simp only [step, call, save, Room.request_of_closed hclosed, List.lookup_cons_self]
    exact .refused hclosed rfl rfl rfl
  | acceptWaiting c hc _ _ hrequest hopen hheld =>
    simp only [step, poll, h.waitingCall?_eq hc, hrequest, hopen, List.contains_iff_mem.2 hheld]
    exact .accepted hopen rfl rfl rfl
  | refuseWaiting c hc _ _ hrequest hclosed =>
    simp only [step, poll, h.waitingCall?_eq hc, hrequest, hclosed]
    exact .refused hclosed rfl rfl rfl

/-! ## Samples that were not accepted -/

theorem mem_of_accepted {x : Item} (hx : x ∈ accepted requests effects) :
    .answered x.ticket .queued ∈ effects := by
  obtain ⟨effect, heffect, haccepts⟩ := List.mem_filterMap.1 hx
  cases effect with
  | answered n o =>
    cases o with
    | queued =>
      simp only [Effect.accepts?] at haccepts
      split at haccepts
      · obtain rfl := Option.some.inj haccepts
        exact heffect
      · cases haccepts
    | _ => cases haccepts
  | _ => cases haccepts

/-- Whoever has to do with the room has had its sample accepted, or waits. -/
theorem Seated.mem_of_seats (h : Seated p requests effects) {n : Ticket} (hn : n ∈ p.room.seats) :
    .answered n .queued ∈ effects ∨ n ∈ p.waiting.map Call.number := by
  rcases h.fits.mem_seats n hn with hin | hwaits
  · obtain ⟨x, hx, rfl⟩ := List.mem_map.1 hin
    have hmem : x ∈ accepted requests effects :=
      h.accepted_perm.mem_iff.2 (List.mem_append_right _ hx)
    exact .inl (mem_of_accepted hmem)
  · exact .inr (Seated.number_of_saving hwaits)

/-! ## Runs -/

/-- What a run has done about its save number `n`. -/
structure SaveSettled (settings : WriterSettings) (valid : settings.Valid) (tick now : Nat)
    (events : List Event) (n : Ticket) (series : SeriesId) (sample : Sample) : Prop where
  /-- One event has ended it, if it has ended, and only that one; it has been refused if the pool was
  being stopped by then. -/
  ends : ∀ o, .answered n o ∈ ((start settings valid tick now).run events).2 →
    (answered ((start settings valid tick now).run events).2).count n = 1 ∧
      ∃ before e after, events = before ++ e :: after ∧
        let p := ((start settings valid tick now).run before).1
        (p.step e).2 = [.answered n o] ∧ SaveEnds settings p (p.step e).1 n series sample o ∧
          (p.isOpen = true ↔ .stop ∉ Pool.requests before)
  /-- Where saves are made to wait, none is dropped or rejected. -/
  blocks : settings.overflow = .block →
    ∀ o, .answered n o ∈ ((start settings valid tick now).run events).2 →
      o = .queued ∨ o = .failed .queueClosed
  /-- A sample that has not been accepted has not been to the backend, and has no place once its call
  has ended. -/
  unaccepted : .answered n .queued ∉ ((start settings valid tick now).run events).2 →
    (∀ x ∈ handedItems ((start settings valid tick now).run events).2, x.ticket ≠ n) ∧
      (n ∉ ((start settings valid tick now).run events).1.waiting.map Call.number →
        n ∉ ((start settings valid tick now).run events).1.room.seats)

/-- Every save is refused, at once or as soon as it looks, and none is left waiting. -/
structure RefusesSaves (p : Pool) : Prop where
  called : ∀ series sample,
    (p.step (.call (.save series sample))).2 = [.answered p.calls (.failed .queueClosed)]
  looks : ∀ c ∈ p.waiting, c.saves = true →
    (p.step (.poll c.number)).2 = [.answered c.number (.failed .queueClosed)]
  settled : p.Settled → ∀ c ∈ p.waiting, c.saves = false

/-- A closed pool refuses every save. -/
theorem Seated.refusesSaves (h : Seated p requests effects) (hclosed : p.isOpen = false) :
    RefusesSaves p where
  called series sample := by
    simp only [Pool.step, call, save, Room.request_of_closed hclosed, List.lookup_cons_self]
  looks c hc hsaves := by
    obtain ⟨series, sample, hrequest⟩ := exists_of_saves hsaves
    simp only [Pool.step, poll, h.waitingCall?_eq hc, hrequest, hclosed, Bool.not_false, if_true]
  settled hsettled c hc := by
    refine eq_false_of_ne_true fun hsaves => ?_
    have hopen := (h.not_held_of_settled hsettled hc hsaves).1
    exact absurd (hopen.symm.trans hclosed) (by simp)

/-- What answers a save in a run ends it in one of the four ways. -/
theorem exists_saveEnds {settings : WriterSettings} {valid : settings.Valid} {tick now : Nat}
    {events : List Event} {n : Ticket} {series : SeriesId} {sample : Sample} {o : Outcome}
    (hrequest : (Pool.requests events)[n]? = some (.save series sample))
    (ho : .answered n o ∈ ((start settings valid tick now).run events).2) :
    ∃ before e after, events = before ++ e :: after ∧
      let p := ((start settings valid tick now).run before).1
      (p.step e).2 = [.answered n o] ∧ SaveEnds settings p (p.step e).1 n series sample o ∧
        (p.isOpen = true ↔ .stop ∉ Pool.requests before) := by
  obtain ⟨earlier, later, hsplit⟩ := List.append_of_mem ho
  obtain ⟨before, e, after, rfl, -, hmem⟩ := exists_answering hsplit
  obtain ⟨⟨r, hanswering⟩, halone⟩ := step_answering hmem
  have hseated := run_seated settings valid tick now before
  have hhalting := run_halting settings valid tick now before
  obtain ⟨hsettings, hpolicy⟩ := run_settings settings valid tick now before
  obtain rfl : r = .save series sample := by
    have hevents : Pool.requests (before ++ e :: after) =
        (Pool.requests before ++ e.made) ++ Pool.requests after := by
      rw [requests_append, List.append_assoc]
      rfl
    rw [hevents] at hrequest
    exact request_eq_of_append (hseated.request_of_answering hanswering) hrequest
  have hends := saveEnds hseated (hpolicy.trans (congrArg _ hsettings.symm)) hanswering
  rw [hsettings] at hends
  exact ⟨before, e, after, rfl, halone, hends, hhalting.isOpen_iff⟩

theorem run_saveSettled {settings : WriterSettings} {valid : settings.Valid} {tick now : Nat}
    {events : List Event} {n : Ticket} {series : SeriesId} {sample : Sample}
    (hrequest : (Pool.requests events)[n]? = some (.save series sample)) :
    SaveSettled settings valid tick now events n series sample := by
  have hrun := run_seated settings valid tick now events
  refine ⟨fun o ho => ⟨?_, exists_saveEnds hrequest ho⟩, fun hblocks o ho => ?_, fun hnot =>
    ⟨fun x hx he => ?_, fun hwaits hseat => ?_⟩⟩
  · have hmem : n ∈ answered ((start settings valid tick now).run events).2 :=
      List.mem_filterMap.2 ⟨_, ho, rfl⟩
    exact List.count_eq_one_of_mem hrun.answered_nodup hmem
  · obtain ⟨before, e, after, -, -, hends, -⟩ := exists_saveEnds hrequest ho
    cases hends with
    | accepted => exact .inl rfl
    | dropped _ hpolicy => exact absurd (hblocks.symm.trans hpolicy) (by simp)
    | rejected _ hpolicy => exact absurd (hblocks.symm.trans hpolicy) (by simp)
    | refused => exact .inr rfl
  · exact hnot (he ▸ mem_of_accepted (hrun.mem_accepted hx))
  · exact (hrun.mem_of_seats hseat).elim hnot hwaits

/-- In every run each save that has ended has done so once and in one of the four ways, and once a stop
has been made all saves are refused. -/
theorem run_saves (settings : WriterSettings) (valid : settings.Valid) (tick now : Nat)
    (events : List Event) :
    (∀ n series sample, (Pool.requests events)[n]? = some (.save series sample) →
      SaveSettled settings valid tick now events n series sample) ∧
    (.stop ∈ Pool.requests events →
      RefusesSaves ((start settings valid tick now).run events).1) := by
  refine ⟨fun n series sample hrequest => run_saveSettled hrequest, fun hstop => ?_⟩
  exact (run_seated settings valid tick now events).refusesSaves
    ((run_halting settings valid tick now events).closed_of_mem hstop)

/-- One sample is accepted, one dropped because there is no room, and one refused after a stop. -/
theorem run_saves_drop_newest :
    let settings : WriterSettings := ⟨1, 2, 100, 1, .dropNewest⟩
    let sample : Sample := ⟨5, .flag true, none⟩
    let events : List Event := [.call (.save 1 sample), .call (.save 2 sample), .call .stop,
      .call (.save 1 sample)]
    ∃ valid : settings.Valid,
      let r := (start settings valid 5000 0).run events
      r.2 = [.answered 0 .queued, .answered 1 .dropped, .answered 3 (.failed .queueClosed)] ∧
        SaveSettled settings valid 5000 0 events 1 2 sample ∧ RefusesSaves r.1 := by
  exact ⟨⟨by decide, by decide, by decide, by decide, by decide⟩, by decide,
    (run_saves _ _ _ _ _).1 1 2 _ rfl, (run_saves _ _ _ _ _).2 (by decide)⟩

end Pool

end Historian
