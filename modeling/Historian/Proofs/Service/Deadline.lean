import Historian.Proofs.Read.Rows
import Historian.Proofs.Service.Awaited

/-!
# The deadline of a stop

A stop is answered with the tasks that are unfinished at the deadline, or, if there are none, as soon
as the last one has ended.

* `Group.Stage` — what has become of a stop, and what it has been answered so far.
* `Group.Stage.step`, `Group.Stage.run` — the one answer to a stop in the history that follows it.
* `Group.run_stop_fair` — when a stop is answered, and what.
-/

set_option autoImplicit false

namespace Historian.Group

/-! ## The answer -/

/-- What has become of the stop of `g` by `m`, `answers` being all that it has been answered. -/
structure Stage (g m : Group) (answers : List Answer) : Prop extends Traces g m where
  waiting : m.now < g.returnsAt → Waiting g m ∧ answers = []
  answered : g.returnsAt ≤ m.now → Answered g m ∧ answers = [(g.calls, g.verdict)]

/-- In `m` every task taken over by the stop of `g` is on its way, and the stop is answered only when
its time has come, and with its verdict. -/
structure InTime (g m : Group) : Prop extends Moving g m where
  answer : ∀ r, (g.calls, r) ∈ m.settle.2 → r = g.verdict ∧ m.now = g.returnsAt

theorem Moving.inTime_of_eq_nil {g m : Group} (hmoving : Moving g m)
    (h : g.answersTo m.settle.2 = []) : InTime g m := by
  refine ⟨hmoving, fun r hr => ?_⟩
  have hmem : (g.calls, r) ∈ g.answersTo m.settle.2 := List.mem_filter.2 ⟨hr, by simp⟩
  rw [h] at hmem
  cases hmem

theorem Moving.inTime_of_eq_verdict {g m : Group} (hmoving : Moving g m) (hnow : m.now = g.returnsAt)
    (h : g.answersTo m.settle.2 = [(g.calls, g.verdict)]) : InTime g m := by
  refine ⟨hmoving, fun r hr => ?_⟩
  have hmem : (g.calls, r) ∈ g.answersTo m.settle.2 := List.mem_filter.2 ⟨hr, by simp⟩
  rw [h, List.mem_singleton] at hmem
  exact ⟨(Prod.mk.inj hmem).2, hnow⟩

theorem answersTo_append (g : Group) (xs ys : List Answer) :
    g.answersTo (xs ++ ys) = g.answersTo xs ++ g.answersTo ys := List.filter_append ..

theorem Moving.stage {g m : Group} (h : Moving g m) (hwaiting : Waiting g m)
    (hle : m.now ≤ g.returnsAt) :
    Stage g m.settle.1 (g.answersTo m.settle.2) ∧ InTime g m := by
  have hsame : m.settle.1.now = m.now := (runTasks_frame m).2
  obtain ⟨hearly, hdue⟩ := h.settle_waiting hwaiting
  rcases Nat.lt_or_eq_of_le hle with hlt | hnow
  · refine ⟨⟨h.settle, fun _ => hearly hlt, fun hge => ?_⟩, h.inTime_of_eq_nil (hearly hlt).2⟩
    rw [hsame] at hge
    omega
  · refine ⟨⟨h.settle, fun hlt => ?_, fun _ => hdue hnow⟩,
      h.inTime_of_eq_verdict hnow (hdue hnow).2⟩
    rw [hsame] at hlt
    omega

namespace Stage

variable {g m : Group} {answers : List Answer}

/-- The clock goes on to `t` without leaving out the time of the answer. -/
theorem settle (howned : g.Owned) (h : Stage g m answers) {t : Nat} (hle : m.now ≤ t)
    (hnext : m.now < g.returnsAt → t ≤ g.returnsAt) :
    Stage g { m with now := t }.settle.1
        (answers ++ g.answersTo { m with now := t }.settle.2) ∧
      InTime g { m with now := t } := by
  have hmoving := h.toTraces.clock howned hle
  rcases Nat.lt_or_ge m.now g.returnsAt with hlt | hge
  · obtain ⟨⟨passed, awaited, hsplit, hpassed, hstops⟩, rfl⟩ := h.waiting hlt
    rw [List.nil_append]
    refine hmoving.stage ⟨passed, awaited, hsplit, fun e he => ?_, hstops⟩ (hnext hlt)
    exact Ending.endedBy_mono (hpassed e he) hle
  · obtain ⟨hanswered, rfl⟩ := h.answered hge
    obtain ⟨hanswered', hnone⟩ := Moving.settle_answered (m := { m with now := t }) hanswered
    have hsame : { m with now := t }.settle.1.now = t := (runTasks_frame { m with now := t }).2
    rw [hnone, List.append_nil]
    refine ⟨⟨hmoving.settle, fun hlt => ?_, fun _ => ⟨hanswered', rfl⟩⟩,
      hmoving.inTime_of_eq_nil hnone⟩
    rw [hsame] at hlt
    omega

theorem passing (howned : g.Owned) (times : List Nat) :
    ∀ {m : Group} {answers : List Answer}, Stage g m answers →
      (m.now :: times).Pairwise (· ≤ ·) →
      (m.now < g.returnsAt → g.returnsAt ∈ times ∨ ∀ t ∈ times, t ≤ g.returnsAt) →
      Stage g (m.passThrough times).1 (answers ++ g.answersTo (m.passThrough times).2) ∧
        ∀ m' ∈ m.passing times, InTime g m' := by
  induction times with
  | nil =>
    intro m answers h _ _
    refine ⟨?_, fun m' hm' => nomatch hm'⟩
    show Stage g m (answers ++ [])
    rwa [List.append_nil]
  | cons t rest ih =>
    intro m answers h hordered hnext
    obtain ⟨hfirst, hrest⟩ := List.pairwise_cons.1 hordered
    have hlater := (List.pairwise_cons.1 hrest).1
    have hsame : { m with now := t }.settle.1.now = t := (runTasks_frame { m with now := t }).2
    have hdue : m.now < g.returnsAt → t ≤ g.returnsAt := by
      intro hlt
      rcases hnext hlt with hmem | hall
      · rcases List.mem_cons.1 hmem with rfl | hmem
        · exact Nat.le_refl _
        · exact hlater _ hmem
      · exact hall t List.mem_cons_self
    obtain ⟨hstage, hintime⟩ := h.settle howned (hfirst t List.mem_cons_self) hdue
    obtain ⟨hlast, hall⟩ := ih hstage (by rwa [hsame]) (by
      rw [hsame]
      intro hlt
      have hle := hfirst t List.mem_cons_self
      rcases hnext (Nat.lt_of_le_of_lt hle hlt) with hmem | hall
      · refine .inl ((List.mem_cons.1 hmem).resolve_left ?_)
        omega
      · exact .inr fun t' ht' => hall t' (List.mem_cons_of_mem _ ht'))
    rw [List.append_assoc, ← answersTo_append] at hlast
    exact ⟨hlast, List.forall_mem_cons.2 ⟨hintime, hall⟩⟩

/-- Only the passing of time makes anything due later. -/
theorem due_cases (m : Group) (e : Event) :
    (m.due e = [] ∨ m.due e = [m.now]) ∨ ∃ time, e = .advance time := by
  cases e with
  | register name b =>
    unfold due
    simp only
    split
    · exact .inl (.inr rfl)
    · exact .inl (.inl rfl)
  | start =>
    unfold due
    simp only
    split
    · exact .inl (.inr rfl)
    · exact .inl (.inl rfl)
  | stop => exact .inl (.inr rfl)
  | advance time => exact .inr ⟨time, rfl⟩

/-- Whatever is due comes in the order of its time. -/
theorem due_ordered (m : Group) (e : Event) : (m.now :: m.due e).Pairwise (· ≤ ·) := by
  rcases due_cases m e with (hdue | hdue) | ⟨time, rfl⟩
  · simp [hdue]
  · simp [hdue]
  · have hbounds : ∀ t ∈ m.timersBefore (m.now + time), m.now < t ∧ t < m.now + time := by
      intro t ht
      have hmem := (List.mem_filter.1 (SortedMap.mem_distinct.1 ht)).2
      simpa using hmem
    refine List.pairwise_cons.2 ⟨fun t ht => ?_, List.pairwise_append.2 ⟨?_, by simp, ?_⟩⟩
    · rcases List.mem_append.1 ht with ht | ht
      · exact Nat.le_of_lt (hbounds t ht).1
      · rw [List.mem_singleton.1 ht]
        exact Nat.le_add_right ..
    · exact (SortedMap.pairwise_distinct _).imp fun hlt => Nat.le_of_lt (Nat.compare_eq_lt.1 hlt)
    · intro t ht t' ht'
      rw [List.mem_singleton.1 ht']
      exact Nat.le_of_lt (hbounds t ht).2

/-- What the stop waits for has a timer. -/
theorem returnsAt_mem_timers (h : Stage g m answers) (hlt : m.now < g.returnsAt) :
    g.returnsAt ∈ m.tasks.filterMap (fun t => t.phase.timer?) ++ m.stops.map Stopping.deadline := by
  obtain ⟨⟨passed, awaited, -, -, hstops⟩, -⟩ := h.waiting hlt
  unfold returnsAt at hlt ⊢
  split at hlt
  · next hnone =>
    -- the task that ends last is still sleeping
    rw [if_pos hnone]
    obtain ⟨hlast | ⟨e, he, hlast⟩, -⟩ := g.lastEnd_isGreatest
    · exact absurd (Nat.lt_of_le_of_lt h.now_le hlt) (hlast ▸ Nat.lt_irrefl _)
    · obtain ⟨t, ht, -, hphase⟩ := h.task e.1 e.2 (mem_taken.1 he)
      refine List.mem_append_left _ (List.mem_filterMap.2 ⟨t, (mem_of_taskOf ht).1, ?_⟩)
      rw [hphase, hlast]
      show (Phase.sleepUntil g.lastEnd m.now).timer? = some g.lastEnd
      unfold Phase.sleepUntil
      rw [if_neg (Nat.not_le_of_lt hlt)]
      rfl
  · next hsome =>
    rw [if_neg hsome]
    have hself := List.mem_singleton_self (⟨g.calls, awaited, [], g.now + g.stopLimit⟩ : Stopping)
    rw [← hstops] at hself
    have hmem : (⟨g.calls, awaited, [], g.now + g.stopLimit⟩ : Stopping) ∈ m.stops :=
      (List.mem_filter.1 hself).1
    exact List.mem_append_right _ (List.mem_map_of_mem hmem)

/-- So the time of the answer is not left out. -/
theorem returnsAt_due (h : Stage g m answers) (hlt : m.now < g.returnsAt) (e : Event) :
    g.returnsAt ∈ m.due e ∨ ∀ t ∈ m.due e, t ≤ g.returnsAt := by
  rcases due_cases m e with (hdue | hdue) | ⟨time, rfl⟩
  · exact .inr fun t ht => by simp [hdue] at ht
  · refine .inr fun t ht => ?_
    rw [hdue, List.mem_singleton] at ht
    omega
  · rcases Nat.lt_or_ge g.returnsAt (m.now + time) with hbefore | hafter
    · refine .inl (List.mem_append_left _ (SortedMap.mem_distinct.2 (List.mem_filter.2 ?_)))
      exact ⟨h.returnsAt_mem_timers hlt, by simp [hlt, hbefore]⟩
    · refine .inr fun t ht => Nat.le_trans ?_ hafter
      have hlater := (List.pairwise_cons.1 (due_ordered m (.advance time))).2
      rcases List.mem_append.1 ht with ht | ht
      · exact (List.pairwise_append.1 hlater).2.2 t ht _ (List.mem_singleton_self _)
      · exact Nat.le_of_eq (List.mem_singleton.1 ht)

/-- No event moves the clock by itself, and a stop that it adds is another one. -/
theorem begun_frame (h : g.calls < m.calls) (e : Event) : (m.begun e).now = m.now ∧
    ((m.begun e).stops.filter fun s => s.call = g.calls) =
      m.stops.filter fun s => s.call = g.calls := by
  cases e with
  | register name b =>
    simp only [Group.begun]
    cases hregister : m.register name b with
    | error x => exact ⟨rfl, rfl⟩
    | ok m' =>
      obtain ⟨-, rfl⟩ := register_eq_ok hregister
      exact ⟨rfl, rfl⟩
  | start =>
    simp only [Group.begun]
    cases hstart : m.start with
    | error x => exact ⟨rfl, rfl⟩
    | ok m' =>
      obtain ⟨-, rfl⟩ := start_eq_ok hstart
      exact ⟨rfl, rfl⟩
  | stop =>
    refine ⟨rfl, ?_⟩
    show (m.stops ++ [_]).filter _ = _
    rw [List.filter_append, List.filter_cons_of_neg, List.filter_nil, List.append_nil]
    simpa using Nat.ne_of_gt h
  | advance time => exact ⟨rfl, rfl⟩

theorem begun (htidy : Tidy g) (h : Stage g m answers) (e : Event) :
    Stage g (m.begun e) answers := by
  obtain ⟨hnow, hstops⟩ := begun_frame h.calls_lt e
  refine ⟨h.toTraces.begun htidy e, ?_, ?_⟩
  · unfold Waiting
    rw [hstops, hnow]
    exact h.waiting
  · unfold Answered
    rw [hstops, hnow]
    exact h.answered

/-- Every event keeps this. -/
theorem step (htidy : Tidy g) (howned : g.Owned) (h : Stage g m answers) (e : Event) :
    Stage g (m.step e).1 (answers ++ g.answersTo (m.step e).2) ∧
      ∀ m' ∈ (m.begun e).passing (m.due e), InTime g m' := by
  obtain ⟨hnow, -⟩ := begun_frame h.calls_lt e
  obtain ⟨hgroup, atOnce, hcalls, hanswers⟩ := step_eq m e
  have hother : g.answersTo atOnce = [] := by
    refine List.filter_eq_nil_iff.2 fun a ha => ?_
    have hcall := (hcalls a ha).1
    have hlt := h.calls_lt
    simp only [decide_eq_true_eq]
    omega
  rw [hgroup, hanswers, answersTo_append, hother, List.nil_append]
  refine (h.begun htidy e).passing howned (m.due e) ?_ ?_
  · rw [hnow]
    exact due_ordered m e
  · rw [hnow]
    exact fun hlt => h.returnsAt_due hlt e

theorem run (htidy : Tidy g) (howned : g.Owned) (events : List Event) :
    ∀ {m : Group} {answers : List Answer}, Stage g m answers →
      Stage g (m.run events).1 (answers ++ g.answersTo (m.run events).2) ∧
        ∀ m' ∈ m.moments events, InTime g m' := by
  induction events with
  | nil =>
    intro m answers h
    refine ⟨?_, fun m' hm' => nomatch hm'⟩
    show Stage g m (answers ++ [])
    rwa [List.append_nil]
  | cons e rest ih =>
    intro m answers h
    obtain ⟨hstep, hfirst⟩ := h.step htidy howned e
    obtain ⟨hlast, hrest⟩ := ih hstep
    rw [List.append_assoc, ← answersTo_append] at hlast
    refine ⟨hlast, fun m' hm' => ?_⟩
    rcases List.mem_append.1 hm' with hm' | hm'
    · exact hfirst m' hm'
    · exact hrest m' hm'

/-- The stop begins it. -/
theorem step_stop (htidy : Tidy g) (howned : g.Owned) :
    Stage g (g.step .stop).1 (g.answersTo (g.step .stop).2) ∧ InTime g (g.begun .stop) := by
  have hnone : (g.stops.filter fun s => s.call = g.calls) = [] :=
    List.filter_eq_nil_iff.2 fun s hs => by simpa using Nat.ne_of_lt (htidy.call_lt s hs)
  have hwaiting : Waiting g (g.begun .stop) := by
    refine ⟨[], g.taken, rfl, (fun e he => nomatch he), ?_⟩
    show (g.stops ++ [_]).filter _ = _
    rw [List.filter_append, hnone, List.nil_append]
    exact List.filter_cons_of_pos (by simp)
  refine (Moving.stop htidy howned).stage hwaiting ?_
  unfold returnsAt
  split
  · exact g.lastEnd_isGreatest.2 (.inl rfl)
  · exact Nat.le_add_right ..

end Stage

/-- What a stop requested of `g` is answered, and when. -/
structure StopReturns (g : Group) (r : Except ServiceFailure Unit) (time : Nat) : Prop where
  /-- The answer is not later than the deadline. -/
  time_le : time ≤ g.now + g.stopLimit
  /-- If every task ends before the deadline, the last of them decides. -/
  inTime : (∀ name, (g.held name).isSome →
      (g.endingOf name).endsBefore (g.now + g.stopLimit) = true) →
    r = .ok () ∧ IsGreatest
      {t | t = g.now ∨ ∃ name, (g.held name).isSome ∧ g.endingOf name = .planned t} time
  /-- If one does not, all that do not are named. -/
  late : ∀ name, (g.held name).isSome →
      (g.endingOf name).endsBefore (g.now + g.stopLimit) = false →
    time = g.now + g.stopLimit ∧ ∃ names, r = .error (.late names) ∧ names.Pairwise (· < ·) ∧
      ∀ name, name ∈ names ↔ (g.held name).isSome ∧
        (g.endingOf name).endsBefore (g.now + g.stopLimit) = false

theorem stopReturns {g : Group}
    (hties : ∀ name, (g.held name).isSome → g.endingOf name ≠ .planned (g.now + g.stopLimit)) :
    g.StopReturns g.verdict g.returnsAt := by
  have hheld : ∀ name, (g.held name).isSome ↔ ∃ n, (name, n) ∈ g.taken := fun name =>
    Option.isSome_iff_exists.trans (exists_congr fun n => (mem_taken (e := (name, n))).symm)
  have hmem : ∀ name, name ∈ g.lateNames ↔ (g.held name).isSome ∧
      (g.endingOf name).endsBefore (g.now + g.stopLimit) = false := by
    intro name
    unfold lateNames unfinished
    rw [List.mem_map]
    constructor
    · rintro ⟨e, he, rfl⟩
      obtain ⟨he, hlate⟩ := List.mem_filter.1 he
      have hsome := (hheld e.1).2 ⟨e.2, he⟩
      rw [Ending.endedBy_eq_endsBefore (hties e.1 hsome)] at hlate
      exact ⟨hsome, by simpa using hlate⟩
    · rintro ⟨hsome, hlate⟩
      obtain ⟨n, hn⟩ := (hheld name).1 hsome
      refine ⟨(name, n), List.mem_filter.2 ⟨hn, ?_⟩, rfl⟩
      rw [Ending.endedBy_eq_endsBefore (hties name hsome), hlate]
      rfl
  constructor
  case time_le => exact g.returnsAt_le
  case inTime =>
    intro hall
    have hnone : g.lateNames = [] := by
      refine List.eq_nil_iff_forall_not_mem.2 fun name hname => ?_
      obtain ⟨hsome, hlate⟩ := (hmem name).1 hname
      rw [hall name hsome] at hlate
      cases hlate
    refine ⟨if_pos hnone, ?_⟩
    rw [show g.returnsAt = g.lastEnd from if_pos hnone]
    have htimes : {t | t = g.now ∨ ∃ name, (g.held name).isSome ∧ g.endingOf name = .planned t} =
        {t | t = g.now ∨ ∃ e ∈ g.taken, g.endingOf e.1 = .planned t} := by
      ext t
      refine or_congr_right ⟨?_, ?_⟩
      · rintro ⟨name, hsome, htime⟩
        obtain ⟨n, hn⟩ := (hheld name).1 hsome
        exact ⟨(name, n), hn, htime⟩
      · rintro ⟨e, he, htime⟩
        exact ⟨e.1, (hheld e.1).2 ⟨e.2, he⟩, htime⟩
    rw [htimes]
    exact g.lastEnd_isGreatest
  case late =>
    intro name hsome hlate
    have hne : g.lateNames ≠ [] := List.ne_nil_of_mem ((hmem name).2 ⟨hsome, hlate⟩)
    refine ⟨if_neg hne, g.lateNames, if_neg hne, ?_, hmem⟩
    exact List.pairwise_map.2 (g.pairwise_taken.sublist List.filter_sublist)

/-- A stop that can take all its time while there is a clock is answered at a time of the clock. -/
theorem StopReturns.time_lt_clockRange {g : Group} {r : Except ServiceFailure Unit} {time : Nat}
    (h : g.StopReturns r time) (hrange : g.now + g.stopLimit < clockRange) : time < clockRange :=
  Nat.lt_of_le_of_lt h.time_le hrange

/-- A stop that is made after any history has one answer, whatever follows, and it is given at one
time: when the last of the tasks taken over ends, if all end before the deadline, and otherwise at
the deadline, with the names of those that do not.  No task ends later for another, or for what it
leaves behind. -/
theorem run_stop_fair (stopLimit now : Nat) (before later : List Event) :
    let g := ((new stopLimit now).run before).1
    let history := g.run (.stop :: later)
    (∀ name, (g.held name).isSome → g.endingOf name ≠ .planned (g.now + g.stopLimit)) →
    ∃ r time, g.StopReturns r time ∧
      (history.2.filter fun a => a.1 = g.calls) =
        (if time ≤ history.1.now then [(g.calls, r)] else []) ∧
      ∀ m ∈ g.moments (.stop :: later),
        (∀ r', (g.calls, r') ∈ m.settle.2 → r' = r ∧ m.now = time) ∧
        ∀ name n, g.held name = some n →
          m.settle.1.hasEnded n = (g.endingOf name).endedBy m.now := by
  intro g history hties
  have htidy : Tidy g := (tidy_new stopLimit now).run before
  have howned : g.Owned := Owned.run before (tidy_new stopLimit now) fun name n hheld => by
    cases hheld
  obtain ⟨hstage, hfirst⟩ := Stage.step_stop htidy howned
  obtain ⟨hlast, hrest⟩ := hstage.run htidy howned later
  have hmoments : ∀ m ∈ g.moments (.stop :: later), InTime g m := by
    intro m hm
    rcases List.mem_append.1 hm with hm | hm
    · obtain rfl := List.mem_singleton.1 hm
      exact hfirst
    · exact hrest m hm
  refine ⟨g.verdict, g.returnsAt, stopReturns hties, ?_, fun m hm =>
    ⟨(hmoments m hm).answer, fun name n hheld => (hmoments m hm).hasEnded_eq hheld⟩⟩
  rw [← answersTo_append] at hlast
  show g.answersTo history.2 = _
  split
  · next hle => exact (hlast.answered hle).2
  · next hlt => exact (hlast.waiting (Nat.lt_of_not_le hlt)).2

/-- The first and the last of four services do not end in time; of the others one has failed at once
and one ends soon. -/
theorem run_stop_fair_two_late :
    let before : List Event := [.register "archiver" (.forTime 5000 .stopped),
      .register "importer" (.forTime 0 (.failed "no such file")),
      .register "poller" (.untilStopped 10 .stopped), .register "watcher" (.forTime 1030 .stopped),
      .start, .advance 20]
    let g := ((new 1000 0).run before).1
    (g.run [.stop, .advance 2000]).2 = [(5, .error (.late ["archiver", "watcher"]))] ∧
      ∀ m ∈ g.moments [.stop, .advance 2000], ∀ r, (g.calls, r) ∈ m.settle.2 → m.now = 1020 := by
  intro before g
  have hends : ∀ e ∈ g.taken, g.endingOf e.1 ≠ .planned (g.now + g.stopLimit) := by
    decide +kernel
  obtain ⟨r, time, hreturns, -, hmoments⟩ := run_stop_fair 1000 0 before [.advance 2000]
    fun name hsome => by
      obtain ⟨n, hn⟩ := Option.isSome_iff_exists.1 hsome
      exact hends (name, n) (mem_taken.2 hn)
  obtain ⟨htime, -⟩ := hreturns.late "archiver" (by decide +kernel) (by decide +kernel)
  have hdeadline : g.now + g.stopLimit = 1020 := by decide +kernel
  refine ⟨by decide +kernel, fun m hm r' hr => ?_⟩
  rw [((hmoments m hm).1 r' hr).2, htime]
  exact hdeadline

end Historian.Group
