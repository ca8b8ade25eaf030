import Historian.Proofs.Queue.Calls

/-!
# How calls are answered

`Pool.Answering p e n r o` lists the ways in which an event `e` can make call `n` of a pool `p`, which
has asked for `r`, end with outcome `o`, and all that has to be the case for it.  Proofs about what
callers are told go through these cases and do not look into the calls again.

* `Pool.step_answering` — every answer is given in one of these ways, and alone.
* `Pool.Runs` — what holds of the runs of any machine: one goes on where another one has ended, and an
  effect is brought about at one moment (`Pool.exists_answering`).
-/

set_option autoImplicit false

namespace Historian

/-! ## Rooms -/

namespace Room

theorem request_of_closed {r : Room} (h : r.isOpen = false) (t : Ticket) :
    r.request t = (r, [(t, .refused .queueClosed)]) := by
  simp [request, h]

theorem request_of_free {r : Room} (hopen : r.isOpen = true)
    (hfree : r.inUse < r.capacity ∧ r.line = []) (t : Ticket) :
    r.request t = ({ r with holders := r.holders ++ [t] }, [(t, .granted)]) := by
  simp [request, hopen, hfree]

/-- What is done for want of room is up to the policy. -/
theorem request_of_full {r : Room} (hopen : r.isOpen = true)
    (hfull : ¬ (r.inUse < r.capacity ∧ r.line = [])) (t : Ticket) :
    r.request t = match r.policy with
      | .block => ({ r with line := r.line ++ [t] }, [])
      | .reject => (r, [(t, .refused (.queueFull r.capacity))])
      | .dropNewest => (r, [(t, .dropped)]) := by
  have hnot : ¬ !r.isOpen := by simp [hopen]
  exact (if_neg hnot).trans (if_neg hfull)

end Room

namespace Pool

variable {p q : Pool}

/-! ## Answers -/

/-- The ways in which calls end: the event, the number of the call, what it has asked for, and how it
ends. -/
inductive Answering (p : Pool) : Event → Ticket → Request → Outcome → Prop
  /-- There is a free place, and nobody waits for it. -/
  | accept (series : SeriesId) (sample : Sample) (hopen : p.isOpen = true)
      (hfree : p.room.inUse < p.room.capacity ∧ p.room.line = []) :
      Answering p (.call (.save series sample)) p.calls (.save series sample) .queued
  | drop (series : SeriesId) (sample : Sample) (hopen : p.isOpen = true)
      (hfull : ¬ (p.room.inUse < p.room.capacity ∧ p.room.line = []))
      (hpolicy : p.room.policy = .dropNewest) :
      Answering p (.call (.save series sample)) p.calls (.save series sample) .dropped
  | reject (series : SeriesId) (sample : Sample) (hopen : p.isOpen = true)
      (hfull : ¬ (p.room.inUse < p.room.capacity ∧ p.room.line = []))
      (hpolicy : p.room.policy = .reject) :
      Answering p (.call (.save series sample)) p.calls (.save series sample)
        (.failed (.queueFull p.room.capacity))
  | refuse (series : SeriesId) (sample : Sample) (hclosed : p.isOpen = false) :
      Answering p (.call (.save series sample)) p.calls (.save series sample)
        (.failed .queueClosed)
  | nothingToFlush (hpending : p.pending = 0) :
      Answering p (.call .flush) p.calls .flush .flushed
  /-- Somebody else has closed the pool; whether it is drained is not looked at. -/
  | stopAgain (hclosed : p.isOpen = false) : Answering p (.call .stop) p.calls .stop .stopped
  /-- The place has been granted while the call waited. -/
  | acceptWaiting (c : Call) (hc : c ∈ p.waiting) (series : SeriesId) (sample : Sample)
      (hrequest : c.request = .save series sample) (hopen : p.isOpen = true)
      (hheld : c.number ∈ p.room.holders) :
      Answering p (.poll c.number) c.number (.save series sample) .queued
  | refuseWaiting (c : Call) (hc : c ∈ p.waiting) (series : SeriesId) (sample : Sample)
      (hrequest : c.request = .save series sample) (hclosed : p.isOpen = false) :
      Answering p (.poll c.number) c.number (.save series sample) (.failed .queueClosed)
  | flushed (c : Call) (hc : c ∈ p.waiting) (hrequest : c.request = .flush)
      (hpending : p.pending = 0) : Answering p (.poll c.number) c.number .flush .flushed
  | stopped (c : Call) (hc : c ∈ p.waiting) (hrequest : c.request = .stop)
      (hdrained : p.isDrained = true) : Answering p (.poll c.number) c.number .stop .stopped
  | timedOut (c : Call) (hc : c ∈ p.waiting) (hrequest : c.request = .stop)
      (hlate : c.since + drainLimit ≤ p.now) :
      Answering p (.poll c.number) c.number .stop (.failed (.drainTimeout p.pending))

/-- What the call has asked for is the request of its number. -/
theorem CallsFollow.request_of_answering {requests : List Request} {effects : List Effect}
    (h : CallsFollow p requests effects) {e : Event} {n : Ticket} {r : Request} {o : Outcome}
    (hanswering : Answering p e n r o) : (requests ++ e.made)[n]? = some r := by
  have hcalled : ∀ r : Request, (requests ++ [r])[p.calls]? = some r := fun r => by
    rw [h.calls_eq, List.getElem?_concat_length]
  have hwaiting : ∀ c ∈ p.waiting, (requests ++ [])[c.number]? = some c.request := fun c hc => by
    rw [List.append_nil, h.waiting_request c hc]
  cases hanswering with
  | accept => exact hcalled _
  | drop => exact hcalled _
  | reject => exact hcalled _
  | refuse => exact hcalled _
  | nothingToFlush => exact hcalled _
  | stopAgain => exact hcalled _
  | acceptWaiting c hc _ _ hrequest => exact hrequest ▸ hwaiting c hc
  | refuseWaiting c hc _ _ hrequest => exact hrequest ▸ hwaiting c hc
  | flushed c hc hrequest => exact hrequest ▸ hwaiting c hc
  | stopped c hc hrequest => exact hrequest ▸ hwaiting c hc
  | timedOut c hc hrequest => exact hrequest ▸ hwaiting c hc

/-- A call whose request is known keeps it, whatever else is asked for later. -/
theorem request_eq_of_append {requests later : List Request} {n : Ticket} {r r' : Request}
    (h : requests[n]? = some r) (h' : (requests ++ later)[n]? = some r') : r = r' := by
  rw [List.getElem?_append_left (List.getElem?_eq_some_iff.1 h).1, h] at h'
  exact Option.some.inj h'

theorem call_answering {request : Request} {n : Ticket} {o : Outcome}
    (h : .answered n o ∈ (p.call request).2) :
    (∃ r, Answering p (.call request) n r o) ∧ (p.call request).2 = [.answered n o] := by
  cases request with
  | save series sample =>
    cases hopen : p.room.isOpen with
    | false =>
      simp only [call, save, Room.request_of_closed hopen, List.lookup_cons_self] at h ⊢
      obtain ⟨rfl, rfl⟩ : n = p.calls ∧ o = .failed .queueClosed := by simpa using h
      exact ⟨⟨_, .refuse series sample hopen⟩, rfl⟩
    | true =>
      by_cases hfree : p.room.inUse < p.room.capacity ∧ p.room.line = []
      · simp only [call, save, Room.request_of_free hopen hfree, List.lookup_cons_self] at h ⊢
        obtain ⟨rfl, rfl⟩ : n = p.calls ∧ o = .queued := by simpa [accept] using h
        exact ⟨⟨_, .accept series sample hopen hfree⟩, rfl⟩
      · have hrequest := Room.request_of_full hopen hfree p.calls
        cases hpolicy : p.room.policy with
        | block =>
          rw [hpolicy] at hrequest
          simp [call, save, hrequest] at h
        | reject =>
          rw [hpolicy] at hrequest
          simp only [call, save, hrequest, List.lookup_cons_self] at h ⊢
          obtain ⟨rfl, rfl⟩ : n = p.calls ∧ o = .failed (.queueFull p.room.capacity) := by
            simpa using h
          exact ⟨⟨_, .reject series sample hopen hfree hpolicy⟩, rfl⟩
        | dropNewest =>
          rw [hpolicy] at hrequest
          simp only [call, save, hrequest, List.lookup_cons_self] at h ⊢
          obtain ⟨rfl, rfl⟩ : n = p.calls ∧ o = .dropped := by simpa using h
          exact ⟨⟨_, .drop series sample hopen hfree hpolicy⟩, rfl⟩
  | flush =>
    simp only [call, flush] at h ⊢
    split at h
    · rename_i hpending
      obtain ⟨rfl, rfl⟩ : n = p.calls ∧ o = .flushed := by simpa using h
      exact ⟨⟨_, .nothingToFlush hpending⟩, by rw [if_pos hpending]⟩
    · simp at h
  | stop =>
    simp only [call, stop] at h ⊢
    split at h
    · simp at h
    · rename_i hclosed
      obtain ⟨rfl, rfl⟩ : n = p.calls ∧ o = .stopped := by simpa using h
      exact ⟨⟨_, .stopAgain (eq_false_of_ne_true hclosed)⟩, by rw [if_neg hclosed]⟩

theorem poll_answering {number n : Ticket} {o : Outcome} (h : .answered n o ∈ (p.poll number).2) :
    (∃ r, Answering p (.poll number) n r o) ∧ (p.poll number).2 = [.answered n o] := by
  simp only [poll] at h ⊢
  cases hfind : p.waitingCall? number with
  | none => simp [hfind] at h
  | some c =>
    obtain ⟨hc, rfl⟩ := exists_of_waitingCall? hfind
    simp only [hfind] at h ⊢
    cases hrequest : c.request with
    | save series sample =>
      simp only [hrequest] at h ⊢
      by_cases hopen : p.isOpen = true
      · by_cases hheld : c.number ∈ p.room.holders
        · simp only [hopen, List.contains_iff_mem.2 hheld] at h ⊢
          obtain ⟨rfl, rfl⟩ : n = c.number ∧ o = .queued := by simpa [accept] using h
          exact ⟨⟨_, .acceptWaiting c hc series sample hrequest hopen hheld⟩, by simp [accept]⟩
        · simp [hopen, hheld] at h
      · have hclosed : p.isOpen = false := by simpa using hopen
        simp only [hclosed] at h ⊢
        obtain ⟨rfl, rfl⟩ : n = c.number ∧ o = .failed .queueClosed := by simpa using h
        exact ⟨⟨_, .refuseWaiting c hc series sample hrequest hclosed⟩, by simp⟩
    | flush =>
      simp only [hrequest] at h ⊢
      split at h
      · rename_i hpending
        obtain ⟨rfl, rfl⟩ : n = c.number ∧ o = .flushed := by simpa using h
        exact ⟨⟨_, .flushed c hc hrequest hpending⟩, by rw [if_pos hpending]⟩
      · simp at h
    | stop =>
      simp only [hrequest] at h ⊢
      split at h
      · rename_i hdrained
        obtain ⟨rfl, rfl⟩ : n = c.number ∧ o = .stopped := by simpa using h
        exact ⟨⟨_, .stopped c hc hrequest hdrained⟩, by rw [if_pos hdrained]⟩
      · rename_i hdrained
        split at h
        · rename_i hlate
          obtain ⟨rfl, rfl⟩ : n = c.number ∧ o = .failed (.drainTimeout p.pending) := by
            simpa using h
          exact ⟨⟨_, .timedOut c hc hrequest hlate⟩, by rw [if_neg hdrained, if_pos hlate]⟩
        · simp at h

/-- No worker answers a call. -/
theorem not_answered_work (i : Nat) (n : Ticket) (o : Outcome) :
    .answered n o ∉ (p.work i).2 := by
  simp only [work, gather]
  repeat' split
  all_goals simp

/-- Every answer is given in one of these ways, and alone. -/
theorem step_answering {e : Event} {n : Ticket} {o : Outcome} (h : .answered n o ∈ (p.step e).2) :
    (∃ r, Answering p e n r o) ∧ (p.step e).2 = [.answered n o] := by
  cases e with
  | call request => exact call_answering h
  | poll number => exact poll_answering h
  | abandon number => exact absurd h (by simp [step])
  | work i => exact absurd h (not_answered_work i n o)
  | finish i stored =>
    refine absurd h ?_
    simp only [step, finish]
    split <;> simp
  | advance time => exact absurd h (by simp [step])

/-- A closed pool accepts nothing. -/
theorem not_queued_of_closed (h : p.isOpen = false) (e : Event) (n : Ticket) :
    .answered n .queued ∉ (p.step e).2 := by
  intro hmem
  obtain ⟨r, hanswering⟩ := (step_answering hmem).1
  cases hanswering with
  | accept _ _ hopen => exact absurd (hopen.symm.trans h) (by simp)
  | acceptWaiting _ _ _ _ _ hopen => exact absurd (hopen.symm.trans h) (by simp)

/-! ## Runs that go on -/

/-- A machine's `run` takes its steps one after the other. -/
structure Runs {σ ε α : Type} (step : σ → ε → σ × List α) (run : σ → List ε → σ × List α) :
    Prop where
  nil : ∀ s, run s [] = (s, [])
  cons : ∀ s e rest, run s (e :: rest) =
    ((run (step s e).1 rest).1, (step s e).2 ++ (run (step s e).1 rest).2)

namespace Runs

variable {σ ε α : Type} {step : σ → ε → σ × List α} {run : σ → List ε → σ × List α}

theorem append (h : Runs step run) (s : σ) (events later : List ε) :
    run s (events ++ later) =
      ((run (run s events).1 later).1, (run s events).2 ++ (run (run s events).1 later).2) := by
  induction events generalizing s with
  | nil => simp [h.nil]
  | cons e rest ih => simp only [List.cons_append, h.cons, ih, List.append_assoc]

theorem concat (h : Runs step run) (s : σ) (events : List ε) (e : ε) :
    run s (events ++ [e]) =
      ((step (run s events).1 e).1, (run s events).2 ++ (step (run s events).1 e).2) := by
  simp only [h.append, h.cons, h.nil, List.append_nil]

/-- An effect that is always alone comes about by one of the events, after all that is seen before
it. -/
theorem exists_step (h : Runs step run) {x : α}
    (halone : ∀ s e, x ∈ (step s e).2 → (step s e).2 = [x]) {events : List ε} {later : List α} :
    ∀ {s : σ} {earlier : List α}, (run s events).2 = earlier ++ x :: later →
      ∃ first e last, events = first ++ e :: last ∧ (run s first).2 = earlier ∧
        x ∈ (step (run s first).1 e).2 := by
  induction events with
  | nil =>
    intro s earlier hsplit
    simp [h.nil] at hsplit
  | cons e rest ih =>
    intro s earlier hsplit
    rw [h.cons] at hsplit
    have hlater : ∀ more : List α, earlier = (step s e).2 ++ more →
        (run (step s e).1 rest).2 = more ++ x :: later →
        ∃ first e' last, e :: rest = first ++ e' :: last ∧ (run s first).2 = earlier ∧
          x ∈ (step (run s first).1 e').2 := by
      rintro more rfl hmore
      obtain ⟨first, e', last, rfl, hfirst, hmem⟩ := ih hmore
      exact ⟨e :: first, e', last, rfl, by rw [h.cons, hfirst], by rwa [h.cons]⟩
    rcases List.append_eq_append_iff.1 hsplit with ⟨more, hearlier, hmore⟩ | ⟨more, hfirst, hmore⟩
    · exact hlater more hearlier hmore
    · cases more with
      | nil => exact hlater [] (by simpa using hfirst.symm) hmore.symm
      | cons y more =>
        obtain ⟨rfl, -⟩ := List.cons.inj hmore
        have hmem : x ∈ (step s e).2 := by
          rw [hfirst]
          simp
        have hempty : earlier = [] := by
          have hlength := congrArg List.length ((halone s e hmem).symm.trans hfirst)
          rw [List.length_append, List.length_singleton, List.length_cons] at hlength
          exact List.length_eq_zero_iff.1 (by omega)
        exact ⟨[], e, rest, rfl, by rw [h.nil, hempty], by rwa [h.nil]⟩

end Runs

theorem runs : Runs step run := ⟨fun _ => rfl, fun _ _ _ => rfl⟩

theorem run_concat (p : Pool) (events : List Event) (e : Event) :
    p.run (events ++ [e]) =
      (((p.run events).1.step e).1, (p.run events).2 ++ ((p.run events).1.step e).2) :=
  runs.concat p events e

theorem requests_append (events later : List Event) :
    requests (events ++ later) = requests events ++ requests later :=
  List.flatMap_append

/-- An answer among the effects of a run is given by one of its events, after all that is seen
before it. -/
theorem exists_answering {events : List Event} {n : Ticket} {o : Outcome} {later earlier : List Effect}
    (h : (p.run events).2 = earlier ++ .answered n o :: later) :
    ∃ first e last, events = first ++ e :: last ∧ (p.run first).2 = earlier ∧
      .answered n o ∈ ((p.run first).1.step e).2 :=
  runs.exists_step (fun _ _ hmem => (step_answering hmem).2) h

end Pool

end Historian
