import Historian.Proofs.Service.Generations

/-!
# What a stop can promise

A stop answers for the tasks that it has taken over: each of them has ended, or is named as late.  For
the tasks that an earlier stop has taken over, and for those of a later start, it cannot speak.

* `Group.moments` — the groups that a history lets settle; every answer to a stop is given in one of
  them.
* `Group.Keeps`, `Group.Keeps.moments` — the stop of a call waits for all that it has taken over.
* `Group.Keeps.names_of_answer` — so its answer names what has not ended of that.
* `Group.run_stop_iff` — its answer is the whole truth exactly if nothing else goes on unnamed; and
  it is, if nothing was left behind when the stop was made and nothing has been started since.
-/

set_option autoImplicit false

namespace Historian.Group

/-! ## Moments -/

/-- The group after an event has been handled and before anything goes on. -/
def begun (g : Group) : Event → Group
  | .register name b =>
    match g.register name b with
    | .ok g' => { g' with calls := g.calls + 1 }
    | .error _ => { g with calls := g.calls + 1 }
  | .start =>
    match g.start with
    | .ok g' => { g' with calls := g.calls + 1 }
    | .error _ => { g with calls := g.calls + 1 }
  | .stop => { g.stop g.calls with calls := g.calls + 1 }
  | .advance _ => g

/-- The times at which an event lets everything go on; a refused call does not. -/
def due (g : Group) : Event → List Nat
  | .register name b =>
    match g.register name b with
    | .ok _ => [g.now]
    | .error _ => []
  | .start =>
    match g.start with
    | .ok _ => [g.now]
    | .error _ => []
  | .stop => [g.now]
  | .advance time => g.timersBefore (g.now + time) ++ [g.now + time]

/-- The groups that settle one after the other while the clock passes some times. -/
def passing (g : Group) : List Nat → List Group
  | [] => []
  | t :: rest => { g with now := t } :: passing { g with now := t }.settle.1 rest

/-- The groups that settle in the course of some events, each as it is just before that. -/
def moments (g : Group) : List Event → List Group
  | [] => []
  | e :: rest => passing (g.begun e) (g.due e) ++ moments (g.step e).1 rest

theorem passThrough_answers (times : List Nat) :
    ∀ g : Group, (g.passThrough times).2 = (g.passing times).flatMap fun m => m.settle.2 := by
  induction times with
  | nil => exact fun _ => rfl
  | cons t rest ih =>
    intro g
    rw [passing, List.flatMap_cons, ← ih]
    rfl

/-- What an event brings about: an answer at once to the calls that have one, and what happens as
everything goes on. -/
theorem step_eq (g : Group) (e : Event) :
    (g.step e).1 = ((g.begun e).passThrough (g.due e)).1 ∧
      ∃ atOnce : List Answer, (∀ a ∈ atOnce, a.1 = g.calls ∧ e ≠ .stop) ∧
        (g.step e).2 = atOnce ++ ((g.begun e).passThrough (g.due e)).2 := by
  cases e with
  | register name b =>
    simp only [step, begun, due]
    cases hregister : g.register name b with
    | error x => exact ⟨rfl, [(g.calls, .error x)], by simp, rfl⟩
    | ok g' =>
      obtain ⟨-, rfl⟩ := register_eq_ok hregister
      exact ⟨rfl, [(g.calls, .ok ())], by simp, by simp [answerNow, passThrough]⟩
  | start =>
    simp only [step, begun, due]
    cases hstart : g.start with
    | error x => exact ⟨rfl, [(g.calls, .error x)], by simp, rfl⟩
    | ok g' =>
      obtain ⟨-, rfl⟩ := start_eq_ok hstart
      exact ⟨rfl, [(g.calls, .ok ())], by simp, by simp [answerNow, passThrough]⟩
  | stop => exact ⟨rfl, [], by simp, by simp [step, begun, due, passThrough, stop]⟩
  | advance time => exact ⟨rfl, [], by simp, rfl⟩

/-- What the clock and settling keep holds of every group that settles on the way. -/
theorem passing_of {P : Group → Prop} (hclock : ∀ (m : Group) t, P m → P { m with now := t })
    (hsettle : ∀ m, P m → P m.settle.1) (times : List Nat) :
    ∀ {g : Group}, P g → (∀ m ∈ g.passing times, P m) ∧ P (g.passThrough times).1 := by
  induction times with
  | nil => exact fun h => ⟨by simp [passing], h⟩
  | cons t rest ih =>
    intro g h
    obtain ⟨hmoments, hlast⟩ := ih (hsettle _ (hclock g t h))
    exact ⟨List.forall_mem_cons.2 ⟨hclock g t h, hmoments⟩, hlast⟩

/-- What the handling of events keeps besides holds of every moment. -/
theorem moments_of {P : Group → Prop} (hclock : ∀ (m : Group) t, P m → P { m with now := t })
    (hsettle : ∀ m, P m → P m.settle.1) {events : List Event}
    (hbegun : ∀ m, P m → ∀ e ∈ events, P (m.begun e)) :
    ∀ {g : Group}, P g → ∀ m ∈ g.moments events, P m := by
  induction events with
  | nil => exact fun _ _ hm => absurd hm List.not_mem_nil
  | cons e rest ih =>
    intro g h m hm
    obtain ⟨hmoments, hlast⟩ := passing_of hclock hsettle (g.due e)
      (hbegun g h e List.mem_cons_self)
    rcases List.mem_append.1 hm with hm | hm
    · exact hmoments m hm
    · refine ih (fun m hm e he => hbegun m hm e (List.mem_cons_of_mem _ he)) ?_ m hm
      rwa [(step_eq g e).1]

/-! ## Calls and tasks in order -/

theorem runTask_calls (g : Group) (number : Nat) : (g.runTask number).calls = g.calls := by
  unfold runTask
  split
  · rfl
  · split <;> rfl

theorem runTasks_calls (g : Group) : g.runTasks.calls = g.calls := by
  have hall : ∀ (numbers : List Nat) (g : Group), (numbers.foldl runTask g).calls = g.calls := by
    intro numbers
    induction numbers with
    | nil => exact fun _ => rfl
    | cons n rest ih => exact fun g => (ih _).trans (runTask_calls g n)
  exact hall _ g

/-- Whatever becomes of a stop when it looks is about its call. -/
theorem pollStop_call (g : Group) (s : Stopping) :
    (∀ s', g.pollStop s = .inl s' → s'.call = s.call) ∧
      ∀ a, g.pollStop s = .inr a → a.1 = s.call := by
  unfold pollStop
  split
  · exact ⟨by simp, by rintro _ ⟨⟩; rfl⟩
  · exact ⟨by simp, by rintro _ ⟨⟩; rfl⟩
  · exact ⟨by rintro _ ⟨⟩; rfl, by simp⟩

/-- A stop that is left after settling is one from before that goes on waiting. -/
theorem exists_of_mem_stops_settle {g : Group} {s' : Stopping} (h : s' ∈ g.settle.1.stops) :
    ∃ s ∈ g.stops, g.runTasks.pollStop s = .inl s' := by
  obtain ⟨r, hr, hleft⟩ := List.mem_filterMap.1 h
  obtain ⟨s, hs, rfl⟩ := List.mem_map.1 hr
  rw [runTasks_stops] at hs
  exact ⟨s, hs, Sum.getLeft?_eq_some_iff.1 hleft⟩

/-- An answer given in settling is that to a stop from before. -/
theorem exists_of_mem_answers_settle {g : Group} {a : Answer} (h : a ∈ g.settle.2) :
    ∃ s ∈ g.stops, g.runTasks.pollStop s = .inr a := by
  obtain ⟨r, hr, hright⟩ := List.mem_filterMap.1 h
  obtain ⟨s, hs, rfl⟩ := List.mem_map.1 hr
  rw [runTasks_stops] at hs
  exact ⟨s, hs, Sum.getRight?_eq_some_iff.1 hright⟩

theorem GoesOn.length_eq {g g' : Group} (h : GoesOn g g') : g'.tasks.length = g.tasks.length := by
  obtain ⟨f, hf, -⟩ := h.tasks
  rw [hf, List.length_map]

/-- The tasks that a start makes are numbered after all others. -/
theorem le_number_of_mem_generation {g : Group} {t : Task} (ht : t ∈ g.generation) :
    g.tasks.length ≤ t.number := by
  obtain ⟨e, he, rfl⟩ := List.mem_map.1 ht
  exact List.le_snd_of_mem_zipIdx he

/-- A stop leaves the group no task of its own. -/
theorem held_stop (g : Group) (call : Nat) (name : String) : (g.stop call).held name = none := by
  rw [held, stop, SortedMap.get?_mapValues]
  cases g.members.get? name <;> rfl

/-- Tasks are numbered, the group holds only such that it has made, and only calls that have been made
wait. -/
structure Tidy (g : Group) : Prop where
  numbered : g.Numbered
  held_lt : ∀ name n, g.held name = some n → n < g.tasks.length
  call_lt : ∀ s ∈ g.stops, s.call < g.calls

namespace Tidy

variable {g : Group}

theorem clock (h : Tidy g) (t : Nat) : Tidy { g with now := t } :=
  ⟨h.numbered, h.held_lt, h.call_lt⟩

theorem settle (h : Tidy g) : Tidy g.settle.1 := by
  have hgoes : GoesOn g g.settle.1 := settle_goesOn h.numbered g.now g.calls
  refine ⟨hgoes.numbered h.numbered, fun name n hheld => ?_, fun s' hs' => ?_⟩
  · rw [hgoes.length_eq]
    exact h.held_lt name n ((hgoes.held name).symm.trans hheld)
  · obtain ⟨s, hs, hpoll⟩ := exists_of_mem_stops_settle hs'
    show s'.call < g.runTasks.calls
    rw [runTasks_calls, (pollStop_call _ s).1 s' hpoll]
    exact h.call_lt s hs

/-- A start hands out the tasks that it makes, and the group held none before. -/
theorem start (h : Tidy g) {g' : Group} (hstart : g.start = .ok g') : Tidy g' := by
  have hnumbered := numbered_start h.numbered hstart
  have hnew := fun t => @held_of_mem_generation g g' hstart t
  obtain ⟨hidle, rfl⟩ := start_eq_ok hstart
  refine ⟨hnumbered, fun name n hheld => ?_, h.call_lt⟩
  by_cases hname : name ∈ g.generation.map Task.name
  · obtain ⟨t, ht, rfl⟩ := List.mem_map.1 hname
    rw [hnew t ht] at hheld
    obtain rfl := Option.some.inj hheld
    have hmem : t.number ∈ List.range (g.tasks ++ g.generation).length :=
      hnumbered ▸ List.mem_map_of_mem (List.mem_append_right _ ht)
    exact List.mem_range.1 hmem
  · have hkeys : g.generation.map Task.name = (g.members.keys.zipIdx g.tasks.length).map (·.1) := by
      rw [generation, List.map_map]
      rfl
    rw [held, get?_foldl_handOut_of_not_mem (hkeys ▸ hname)] at hheld
    exact absurd ((isRunning_eq_false.1 hidle name).symm.trans hheld) (by simp)

theorem begun (h : Tidy g) (e : Event) : Tidy (g.begun e) := by
  have hcalls : ∀ g' : Group, Tidy g' → g'.calls = g.calls → Tidy { g' with calls := g.calls + 1 } :=
    fun g' h' hsame => ⟨h'.numbered, h'.held_lt, fun s hs =>
      Nat.lt_succ_of_lt (hsame ▸ h'.call_lt s hs)⟩
  cases e with
  | register name b =>
    simp only [Group.begun]
    cases hregister : g.register name b with
    | error x => exact hcalls g h rfl
    | ok g' =>
      obtain ⟨-, rfl⟩ := register_eq_ok hregister
      refine hcalls _ ⟨h.numbered, fun name' n hheld => ?_, h.call_lt⟩ rfl
      rw [held, SortedMap.get?_insert] at hheld
      split at hheld
      · cases hheld
      · exact h.held_lt name' n hheld
  | start =>
    simp only [Group.begun]
    cases hstart : g.start with
    | error x => exact hcalls g h rfl
    | ok g' =>
      refine hcalls g' (h.start hstart) ?_
      obtain ⟨-, rfl⟩ := start_eq_ok hstart
      rfl
  | stop =>
    refine ⟨h.numbered, fun name n hheld => ?_, fun s hs => ?_⟩
    · exact absurd ((held_stop g g.calls name).symm.trans hheld) (by simp)
    · rcases List.mem_append.1 hs with hs | hs
      · exact Nat.lt_succ_of_lt (h.call_lt s hs)
      · obtain rfl := List.mem_singleton.1 hs
        exact Nat.lt_succ_self _
  | advance time => exact h

end Tidy

theorem tidy_new (stopLimit now : Nat) : Tidy (new stopLimit now) :=
  ⟨rfl, fun _ _ hheld => absurd hheld (by simp [held, new]),
    fun _ hs => absurd hs List.not_mem_nil⟩

theorem Tidy.run (events : List Event) : ∀ {g : Group}, Tidy g → Tidy (g.run events).1 := by
  induction events with
  | nil => exact fun h => h
  | cons e rest ih =>
    intro g h
    refine @ih (g.step e).1 ?_
    rw [(step_eq g e).1]
    exact (passing_of (fun _ t h => h.clock t) (fun _ h => h.settle) _ (h.begun e)).2

/-! ## What a stop keeps -/

/-- In a group `m` that `g` has become by a stop, and by what came after it, that stop waits for every
unfinished task that it has taken over. -/
structure Keeps (g m : Group) : Prop extends Tidy m where
  calls_lt : g.calls < m.calls
  tasks_le : g.tasks.length ≤ m.tasks.length
  exists_before : ∀ t ∈ m.tasks, t.hasEnded = false → t.number < g.tasks.length →
    ∃ u ∈ g.tasks, u.hasEnded = false ∧ u.number = t.number ∧ u.name = t.name
  awaits : ∀ s ∈ m.stops, s.call = g.calls → ∀ t ∈ m.tasks, t.hasEnded = false →
    g.held t.name = some t.number → s.Awaits t

namespace Keeps

variable {g m : Group}

/-- The stop takes over what the group holds. -/
theorem stop (h : Tidy g) : Keeps g (g.begun .stop) where
  toTidy := h.begun .stop
  calls_lt := Nat.lt_succ_self _
  tasks_le := Nat.le_refl _
  exists_before t ht hrun _ := ⟨t, ht, hrun, rfl, rfl⟩
  awaits s hs hcall t ht hrun hheld := by
    rcases List.mem_append.1 hs with hs | hs
    · exact absurd hcall (Nat.ne_of_lt (h.call_lt s hs))
    · obtain rfl := List.mem_singleton.1 hs
      obtain ⟨member, hmember, htask⟩ := Option.bind_eq_some_iff.1 hheld
      exact .inl (List.mem_filterMap.2
        ⟨(t.name, member), SortedMap.mem_entries_iff.2 hmember, by simp [htask]⟩)

theorem clock (h : Keeps g m) (t : Nat) : Keeps g { m with now := t } where
  toTidy := h.toTidy.clock t
  calls_lt := h.calls_lt
  tasks_le := h.tasks_le
  exists_before := h.exists_before
  awaits := h.awaits

/-- What a stop waits for has not ended, so it goes on waiting for it or names it. -/
theorem names_of_poll (h : Keeps g m) {s : Stopping} (hs : s ∈ m.stops) (hcall : s.call = g.calls)
    {t : Task} (ht : t ∈ m.runTasks.tasks) (hrun : t.hasEnded = false)
    (hheld : g.held t.name = some t.number) :
    (∃ s', m.runTasks.pollStop s = .inl s' ∧ s'.Awaits t) ∨
      ∃ a, m.runTasks.pollStop s = .inr a ∧ ReportedLate [a] t.name := by
  obtain ⟨u, hu, hrunu, hnumber, hname⟩ := (runTasks_goesOn h.numbered).exists_before ht hrun
  have hawaits := h.awaits s hs hcall u hu hrunu (by rw [hname, hnumber, hheld])
  rw [Stopping.Awaits, hname, hnumber] at hawaits
  exact Stopping.Awaits.poll hawaits ht hrun

theorem settle (h : Keeps g m) : Keeps g m.settle.1 where
  toTidy := h.toTidy.settle
  calls_lt := Nat.lt_of_lt_of_eq h.calls_lt (runTasks_calls m).symm
  tasks_le := Nat.le_trans h.tasks_le (Nat.le_of_eq (runTasks_goesOn h.numbered).length_eq.symm)
  exists_before t ht hrun hlt := by
    obtain ⟨u, hu, hrunu, hnumber, hname⟩ := (runTasks_goesOn h.numbered).exists_before ht hrun
    obtain ⟨v, hv, hrunv, hnumber', hname'⟩ := h.exists_before u hu hrunu (hnumber ▸ hlt)
    exact ⟨v, hv, hrunv, hnumber'.trans hnumber, hname'.trans hname⟩
  awaits s' hs' hcall t ht hrun hheld := by
    obtain ⟨s, hs, hpoll⟩ := exists_of_mem_stops_settle hs'
    rw [(pollStop_call _ s).1 s' hpoll] at hcall
    rcases h.names_of_poll hs hcall ht hrun hheld with ⟨s'', hpoll', hawaits⟩ | ⟨a, hpoll', -⟩
    · obtain rfl := Sum.inl.inj (hpoll.symm.trans hpoll')
      exact hawaits
    · cases hpoll.symm.trans hpoll'

/-- A later stop is another call, and a later start makes new tasks. -/
theorem begun (hg : Tidy g) (h : Keeps g m) (e : Event) : Keeps g (m.begun e) := by
  have htidy := h.toTidy.begun e
  have hsame : ∀ m' : Group, Tidy m' → m.calls < m'.calls → m'.tasks = m.tasks → m'.stops = m.stops →
      Keeps g m' := by
    intro m' htidy hcalls htasks hstops
    refine ⟨htidy, Nat.lt_trans h.calls_lt hcalls, htasks ▸ h.tasks_le, htasks ▸ h.exists_before, ?_⟩
    rw [htasks, hstops]
    exact h.awaits
  cases e with
  | register name b =>
    simp only [Group.begun] at htidy ⊢
    cases hregister : m.register name b with
    | error x =>
      rw [hregister] at htidy
      exact hsame _ htidy (Nat.lt_succ_self _) rfl rfl
    | ok m' =>
      rw [hregister] at htidy
      obtain ⟨-, rfl⟩ := register_eq_ok hregister
      exact hsame _ htidy (Nat.lt_succ_self _) rfl rfl
  | start =>
    simp only [Group.begun] at htidy ⊢
    cases hstart : m.start with
    | error x =>
      rw [hstart] at htidy
      exact hsame _ htidy (Nat.lt_succ_self _) rfl rfl
    | ok m' =>
      rw [hstart] at htidy
      obtain ⟨-, rfl⟩ := start_eq_ok hstart
      -- what a start makes is newer than all that the group can have held
      have hnew : ∀ t ∈ m.generation, ¬ t.number < g.tasks.length := fun t ht hlt =>
        absurd (Nat.lt_of_lt_of_le hlt h.tasks_le) (Nat.not_lt_of_le (le_number_of_mem_generation ht))
      refine ⟨htidy, Nat.lt_succ_of_lt h.calls_lt, Nat.le_trans h.tasks_le (by simp),
        fun t ht hrun hlt => ?_, fun s hs hcall t ht hrun hheld => ?_⟩
      · rcases List.mem_append.1 ht with ht | ht
        · exact h.exists_before t ht hrun hlt
        · exact absurd hlt (hnew t ht)
      · rcases List.mem_append.1 ht with ht | ht
        · exact h.awaits s hs hcall t ht hrun hheld
        · exact absurd (hg.held_lt t.name t.number hheld) (hnew t ht)
  | stop =>
    refine ⟨htidy, Nat.lt_succ_of_lt h.calls_lt, h.tasks_le, h.exists_before, fun s hs hcall => ?_⟩
    rcases List.mem_append.1 hs with hs | hs
    · exact h.awaits s hs hcall
    · obtain rfl := List.mem_singleton.1 hs
      exact absurd hcall (Nat.ne_of_gt h.calls_lt)
  | advance time => exact h

/-- Every event keeps this. -/
theorem step (hg : Tidy g) (h : Keeps g m) (e : Event) : Keeps g (m.step e).1 := by
  rw [(step_eq m e).1]
  exact (passing_of (fun _ t h => h.clock t) (fun _ h => h.settle) _ (h.begun hg e)).2

/-- The stop itself establishes it, while the group settles and afterwards. -/
theorem step_stop (hg : Tidy g) :
    (∀ m ∈ (g.begun .stop).passing (g.due .stop), Keeps g m) ∧ Keeps g (g.step .stop).1 := by
  rw [(step_eq g .stop).1]
  exact passing_of (fun _ t h => h.clock t) (fun _ h => h.settle) _ (stop hg)

/-- So it holds at every moment from the stop on. -/
theorem moments (hg : Tidy g) (later : List Event) :
    ∀ m ∈ g.moments (.stop :: later), Keeps g m := by
  obtain ⟨hfirst, hlast⟩ := step_stop hg
  intro m hm
  rcases List.mem_append.1 hm with hm | hm
  · exact hfirst m hm
  · exact moments_of (fun _ t h => h.clock t) (fun _ h => h.settle) (fun _ h e _ => h.begun hg e)
      hlast m hm

end Keeps

/-! ## Answers to stops -/

/-- The answer names the service as late. -/
def NamesLate (r : Except ServiceFailure Unit) (name : String) : Prop :=
  ∃ names, r = .error (.late names) ∧ name ∈ names

/-- The answer names the service of every unfinished task; there is none if it is a success. -/
def TellsAll (g : Group) (r : Except ServiceFailure Unit) : Prop :=
  ∀ t ∈ g.tasks, t.hasEnded = false → NamesLate r t.name

/-- So a success is true of a group only if nothing is running. -/
theorem idle_of_tellsAll {g : Group} (h : g.TellsAll (.ok ())) : g.Idle := by
  intro t ht
  cases hrun : t.hasEnded with
  | true => rfl
  | false =>
    obtain ⟨names, hr, -⟩ := h t ht hrun
    cases hr

/-- The answer to a stop names what has not ended of the tasks that it has taken over. -/
theorem Keeps.names_of_answer {g m : Group} (h : Keeps g m) {r : Except ServiceFailure Unit}
    (hr : (g.calls, r) ∈ m.settle.2) {t : Task} (ht : t ∈ m.settle.1.tasks)
    (hrun : t.hasEnded = false) (hheld : g.held t.name = some t.number) : NamesLate r t.name := by
  obtain ⟨s, hs, hpoll⟩ := exists_of_mem_answers_settle hr
  have hcall : s.call = g.calls := ((pollStop_call _ s).2 _ hpoll).symm
  rcases h.names_of_poll hs hcall ht hrun hheld with ⟨s', hpoll', -⟩ | ⟨a, hpoll', hlate⟩
  · cases hpoll.symm.trans hpoll'
  · obtain rfl := Sum.inr.inj (hpoll.symm.trans hpoll')
    obtain ⟨call, names, hmem, hname⟩ := hlate
    obtain ⟨-, rfl⟩ := Prod.mk.inj (List.mem_singleton.1 hmem)
    exact ⟨names, rfl, hname⟩

/-- An event answers the stops of the past, and its own, only as the group settles. -/
theorem mem_step_iff {m : Group} {e : Event} {call : Nat} (h : call < m.calls ∨ e = .stop)
    (r : Except ServiceFailure Unit) : (call, r) ∈ (m.step e).2 ↔
      ∃ m' ∈ (m.begun e).passing (m.due e), (call, r) ∈ m'.settle.2 := by
  obtain ⟨-, atOnce, hcalls, heq⟩ := step_eq m e
  rw [heq, passThrough_answers, List.mem_append, List.mem_flatMap, or_iff_right]
  intro hmem
  obtain ⟨hcall, hne⟩ := hcalls _ hmem
  rcases h with hlt | he
  · exact Nat.ne_of_lt hlt hcall
  · exact hne he

theorem Keeps.mem_run_iff {g : Group} (hg : Tidy g) (r : Except ServiceFailure Unit)
    (events : List Event) : ∀ {m : Group}, Keeps g m →
      ((g.calls, r) ∈ (m.run events).2 ↔ ∃ m' ∈ m.moments events, (g.calls, r) ∈ m'.settle.2) := by
  induction events with
  | nil => simp [run, Group.moments]
  | cons e rest ih =>
    intro m h
    show _ ∈ (m.step e).2 ++ ((m.step e).1.run rest).2 ↔ _
    rw [List.mem_append, ih (h.step hg e), mem_step_iff (.inl h.calls_lt), Group.moments]
    simp [or_and_right, exists_or]

/-- A stop is answered at the moments of its history, and only there. -/
theorem mem_run_stop_iff {g : Group} (hg : Tidy g) (r : Except ServiceFailure Unit)
    (later : List Event) : (g.calls, r) ∈ (g.run (.stop :: later)).2 ↔
      ∃ m ∈ g.moments (.stop :: later), (g.calls, r) ∈ m.settle.2 := by
  show _ ∈ (g.step .stop).2 ++ ((g.step .stop).1.run later).2 ↔ _
  rw [List.mem_append, (Keeps.step_stop hg).2.mem_run_iff hg, mem_step_iff (.inr rfl), moments]
  simp [or_and_right, exists_or]

/-- If nothing was left behind, the group held all that was unfinished. -/
theorem Sound.held_of_not_leftBehind {g : Group} {answers : List Answer} (h : g.Sound answers)
    (hleft : ¬ g.LeftBehind answers) {t : Task} (ht : t ∈ g.tasks) (hrun : t.hasEnded = false) :
    g.held t.name = some t.number := by
  rcases h.accounted t ht hrun with hheld | ⟨s, hs, -⟩ | hlate
  · exact hheld
  · exact absurd (.inl (List.ne_nil_of_mem hs)) hleft
  · exact absurd (.inr ⟨t, ht, hrun, hlate⟩) hleft

/-- A stop made when nothing was left behind tells all, unless there are new tasks. -/
theorem Keeps.tellsAll {g m : Group} (h : Keeps g m) {answers : List Answer}
    (hsound : g.Sound answers) (hleft : ¬ g.LeftBehind answers)
    (htasks : m.settle.1.tasks.length = g.tasks.length) {r : Except ServiceFailure Unit}
    (hr : (g.calls, r) ∈ m.settle.2) : m.settle.1.TellsAll r := by
  intro t ht hrun
  have hlt : t.number < m.settle.1.tasks.length :=
    List.mem_range.1 (h.settle.numbered ▸ List.mem_map_of_mem ht)
  obtain ⟨u, hu, hrunu, hnumber, hname⟩ := h.settle.exists_before t ht hrun (htasks ▸ hlt)
  have hheld := hsound.held_of_not_leftBehind hleft hu hrunu
  exact h.names_of_answer hr ht hrun (by rw [← hname, ← hnumber, hheld])

/-- A stop made after any history is answered at moments of what follows.  Its answer names every
service with an unfinished task, or is a success and there is none, exactly if that holds of the
tasks that the stop has not taken over itself; and it does, if nothing was left behind when the stop
was made and no task has been made since. -/
theorem run_stop_iff (stopLimit now : Nat) (before later : List Event) :
    let g := ((new stopLimit now).run before).1
    let answers := ((new stopLimit now).run before).2
    ∀ r, ((g.calls, r) ∈ (g.run (.stop :: later)).2 ↔
        ∃ m ∈ g.moments (.stop :: later), (g.calls, r) ∈ m.settle.2) ∧
      ∀ m ∈ g.moments (.stop :: later), (g.calls, r) ∈ m.settle.2 →
        (m.settle.1.TellsAll r ↔ ∀ t ∈ m.settle.1.tasks, t.hasEnded = false →
          g.held t.name ≠ some t.number → NamesLate r t.name) ∧
        (¬ g.LeftBehind answers → m.settle.1.tasks.length = g.tasks.length →
          m.settle.1.TellsAll r) := by
  intro g answers r
  have hg : Tidy g := (tidy_new stopLimit now).run before
  have hsound : g.Sound answers := run_sound stopLimit now before
  refine ⟨mem_run_stop_iff hg r later, fun m hm hr => ?_⟩
  have hkeeps : Keeps g m := Keeps.moments hg later m hm
  refine ⟨⟨fun h t ht hrun _ => h t ht hrun, fun h t ht hrun => ?_⟩,
    fun hleft htasks => hkeeps.tellsAll hsound hleft htasks hr⟩
  by_cases hheld : g.held t.name = some t.number
  · exact hkeeps.names_of_answer hr ht hrun hheld
  · exact h t ht hrun hheld

/-- Two services, of which one does not end in time. -/
theorem run_stop_iff_two_services :
    let g := ((new 1000 0).run [.register "cleaner" (.untilStopped 10 .stopped),
      .register "poller" (.forTime 3600000 .stopped), .start]).1
    ∃ m ∈ g.moments [.stop, .advance 2000], (g.calls, .error (.late ["poller"])) ∈ m.settle.2 ∧
      ¬ m.settle.1.Idle ∧ m.settle.1.TellsAll (.error (.late ["poller"])) := by
  intro g
  have hanswer : ∃ m ∈ g.moments [.stop, .advance 2000],
      (g.calls, .error (.late ["poller"])) ∈ m.settle.2 ∧
        m.settle.1.tasks.length = g.tasks.length ∧
          ∃ t ∈ m.settle.1.tasks, t.hasEnded = false := by
    decide +kernel
  obtain ⟨m, hm, hr, htasks, t, ht, hrun⟩ := hanswer
  have hclear : g.stops = [] := by decide +kernel
  obtain ⟨-, htells⟩ := (run_stop_iff 1000 0 [.register "cleaner" (.untilStopped 10 .stopped),
    .register "poller" (.forTime 3600000 .stopped), .start] [.advance 2000] _).2 m hm hr
  refine ⟨m, hm, hr, fun hidle => by simp [hidle t ht] at hrun, htells ?_ htasks⟩
  rintro (hstops | ⟨u, -, -, call, names, hlate, -⟩)
  · exact hstops hclear
  · have hanswers : ∀ a ∈ ((new 1000 0).run [.register "cleaner" (.untilStopped 10 .stopped),
        .register "poller" (.forTime 3600000 .stopped), .start]).2, a.2 = .ok () := by
      decide +kernel
    cases hanswers _ hlate

/-- A second stop, once the first has been answered that a service is late: a success, while the
service goes on. -/
theorem run_stop_while_late :
    let g := ((new 1000 0).run [.register "poller" (.forTime 3600000 .stopped), .start, .stop,
      .advance 2000]).1
    (g.step .stop).2 = [(3, .ok ())] ∧ ¬ (g.step .stop).1.TellsAll (.ok ()) := by
  intro g
  have hrunning : ∃ t ∈ (g.step .stop).1.tasks, t.hasEnded = false := by decide +kernel
  refine ⟨by decide +kernel, fun htells => ?_⟩
  obtain ⟨t, ht, hrun⟩ := hrunning
  simp [idle_of_tellsAll htells t ht] at hrun

end Historian.Group
