import Historian.Proofs.Service.Stops

/-!
# When the tasks of a stop end

A stop asks every task to end.  When each of them will have ended is settled by then: it depends on
where the task is and on how its service runs, and on nothing that happens later.

* `Group.Ending` — when a task will have ended once a stop is requested of it.
* `Group.taskOf_runTasks` — every task goes on for itself.
* `Group.Owned` — the tasks that a group counts as its own, and so those that a stop takes over, are
  of the services that they are counted for.
* `Group.Traces`, `Group.Moving` — where they are after the stop; `Group.Moving.hasEnded_eq`: they end
  when they should.
-/

set_option autoImplicit false

namespace Historian.Group

/-! ## When tasks end -/

/-- When a task will have ended once a stop is requested of it. -/
inductive Ending
  /-- Before that. -/
  | already
  | planned (time : Nat)
  | never
  deriving DecidableEq

namespace Ending

/-- Whether the task has ended by `time`. -/
def endedBy : Ending → Nat → Bool
  | already, _ => true
  | planned e, time => e ≤ time
  | never, _ => false

/-- Whether the task ends before `time`. -/
def endsBefore : Ending → Nat → Bool
  | already, _ => true
  | planned e, time => e < time
  | never, _ => false

/-- Where the task is at `now`. -/
def phaseAt : Ending → Nat → Phase
  | already, _ => .ended
  | planned e, now => .sleepUntil e now
  | never, _ => .listening

theorem endedBy_mono {e : Ending} {t t' : Nat} (h : e.endedBy t = true) (hle : t ≤ t') :
    e.endedBy t' = true := by
  cases e with
  | already => rfl
  | never => cases h
  | planned e =>
    simp only [endedBy, decide_eq_true_eq] at h ⊢
    omega

/-- Unless the task ends exactly then. -/
theorem endedBy_eq_endsBefore {e : Ending} {time : Nat} (h : e ≠ .planned time) :
    e.endedBy time = e.endsBefore time := by
  cases e with
  | already => rfl
  | never => rfl
  | planned e =>
    have hne : e ≠ time := fun heq => h (heq ▸ rfl)
    simp only [endedBy, endsBefore, decide_eq_decide]
    omega

theorem phaseAt_eq_ended {e : Ending} {now : Nat} :
    e.phaseAt now = .ended ↔ e.endedBy now = true := by
  cases e with
  | already => simp [phaseAt, endedBy]
  | never => simp [phaseAt, endedBy]
  | planned e =>
    simp only [phaseAt, endedBy, Phase.sleepUntil, decide_eq_true_eq]
    split <;> simp [*]

end Ending

/-- The end of a task that is in some phase when a stop is requested. -/
def Phase.ending (b : ServiceBehaviour) (now : Nat) : Phase → Ending
  | fresh =>
    match b with
    | .untilStopped grace _ => .planned (now + grace)
    | .forTime duration _ => .planned (now + duration)
  | listening =>
    match b with
    | .untilStopped grace _ => .planned (now + grace)
    | .forTime .. => .never
  | sleeping wake => .planned wake
  | ended => .already

/-- The request sets the task on its way. -/
theorem Phase.next_requested (b : ServiceBehaviour) (now : Nat) (p : Phase) :
    p.next b true now = (p.ending b now).phaseAt now := by
  cases p <;> cases b <;> rfl

/-- From there on it needs no request. -/
theorem Ending.next_phaseAt {e : Ending} {b : ServiceBehaviour} {t t' : Nat} (hle : t ≤ t')
    (hnever : e = .never → ∀ grace last, b ≠ .untilStopped grace last) (requested : Bool) :
    (e.phaseAt t).next b requested t' = e.phaseAt t' := by
  cases e with
  | already => rfl
  | planned e =>
    simp only [phaseAt, Phase.sleepUntil]
    by_cases hended : e ≤ t
    · rw [if_pos hended, if_pos (Nat.le_trans hended hle)]
      rfl
    · rw [if_neg hended]
      rfl
  | never =>
    cases b with
    | untilStopped grace last => exact absurd rfl (hnever rfl grace last)
    | forTime duration last => rfl

theorem Phase.ne_untilStopped_of_never {b : ServiceBehaviour} {now : Nat} {p : Phase}
    (h : p.ending b now = .never) (grace : Nat) (last : ServiceStatus) :
    b ≠ .untilStopped grace last := by
  rintro rfl
  cases p <;> cases h

/-! ## Tasks by their numbers -/

/-- How a service runs. -/
def behaviourOf (g : Group) (name : String) : Option ServiceBehaviour :=
  (g.members.get? name).map Member.behaviour

/-- The task of a number. -/
def taskOf (g : Group) (number : Nat) : Option Task := g.tasks.find? fun t => t.number == number

/-- When the task of a service will have ended, if a stop is requested now. -/
def endingOf (g : Group) (name : String) : Ending :=
  match g.behaviourOf name, (g.held name).bind g.taskOf with
  | some b, some t => t.phase.ending b g.now
  | _, _ => .never

/-- A task that has gone on until it waits for something. -/
def goOn (g : Group) (t : Task) : Task :=
  match g.behaviourOf t.name with
  | some b => { t with phase := t.phase.next b g.stopRequested g.now }
  | none => t

section

variable {g : Group} {n : Nat} {t : Task}

theorem taskOf_of_mem (hg : g.Numbered) (ht : t ∈ g.tasks) : g.taskOf t.number = some t := by
  cases hfind : g.taskOf t.number with
  | none => exact absurd (beq_self_eq_true _) (List.find?_eq_none.1 hfind t ht)
  | some u =>
    have hnumber : u.number = t.number := by simpa using List.find?_some hfind
    rw [hg.eq (List.mem_of_find?_eq_some hfind) ht hnumber]

theorem mem_of_taskOf (h : g.taskOf n = some t) : t ∈ g.tasks ∧ t.number = n :=
  ⟨List.mem_of_find?_eq_some h, by simpa using List.find?_some h⟩

/-- No other task has the number. -/
theorem hasEnded_eq_of_taskOf (hg : g.Numbered) (h : g.taskOf n = some t) :
    g.hasEnded n = t.hasEnded := by
  obtain ⟨ht, rfl⟩ := mem_of_taskOf h
  cases hended : t.hasEnded with
  | false => exact hasEnded_eq_false ht hended
  | true =>
    refine List.all_eq_true.2 fun u hu => ?_
    by_cases hnumber : u.number = t.number
    · rw [hg.eq hu ht hnumber, hended, Bool.or_true]
    · simp [hnumber]

theorem behaviourOf_runTask (g : Group) (n : Nat) (name : String) :
    (g.runTask n).behaviourOf name = g.behaviourOf name := by
  unfold runTask
  split
  · rfl
  · split
    · rfl
    · next m hm =>
      unfold behaviourOf
      rw [SortedMap.get?_insert]
      split
      · next hname =>
        obtain rfl := Std.LawfulEqOrd.compare_eq_iff_eq.1 hname
        rw [hm]
        rfl
      · rfl

theorem runTask_frame (g : Group) (n : Nat) :
    (g.runTask n).stopRequested = g.stopRequested ∧ (g.runTask n).now = g.now := by
  unfold runTask
  split
  · exact ⟨rfl, rfl⟩
  · split <;> exact ⟨rfl, rfl⟩

theorem goOn_runTask (g : Group) (n : Nat) : (g.runTask n).goOn = g.goOn := by
  funext t
  unfold goOn
  rw [behaviourOf_runTask, (runTask_frame g n).1, (runTask_frame g n).2]

theorem taskOf_runTask (g : Group) (k n : Nat) :
    (g.runTask k).taskOf n = if n = k then (g.taskOf n).map g.goOn else g.taskOf n := by
  have hmap : ∀ f : Task → Task, (∀ t, (f t).number = t.number) →
      (g.tasks.map f).find? (fun t => t.number == n) = (g.taskOf n).map f := by
    intro f hf
    have hsame : ((fun t : Task => t.number == n) ∘ f) = fun t => t.number == n :=
      funext fun t => congrArg (· == n) (hf t)
    rw [List.find?_map, hsame]
    rfl
  unfold runTask
  split
  · next hnone =>
    split
    · next heq =>
      obtain rfl := heq
      rw [show g.taskOf n = none from hnone]
      rfl
    · rfl
  · next t hfind =>
    have hnumber : t.number = k := by simpa using List.find?_some hfind
    split
    · next hm =>
      split
      · next heq =>
        obtain rfl := heq
        have hbehaviour : g.behaviourOf t.name = none := by
          unfold behaviourOf
          rw [hm]
          rfl
        rw [show g.taskOf n = some t from hfind, Option.map_some, goOn, hbehaviour]
      · rfl
    · next m hm =>
      refine (hmap _ fun u => by split <;> rfl).trans ?_
      split
      · next heq =>
        obtain rfl := heq
        have hbehaviour : g.behaviourOf t.name = some m.behaviour := by
          unfold behaviourOf
          rw [hm]
          rfl
        rw [show g.taskOf n = some t from hfind, Option.map_some, Option.map_some, goOn, hbehaviour]
        simp only [hnumber, if_true]
      · next hne =>
        cases hn : g.taskOf n with
        | none => rfl
        | some u =>
          have hu := (mem_of_taskOf hn).2
          rw [Option.map_some, if_neg fun heq => hne (hu.symm.trans heq)]

/-- Each task goes on once. -/
theorem taskOf_foldl_runTask {numbers : List Nat} (hnodup : numbers.Nodup) :
    ∀ g : Group, (numbers.foldl runTask g).taskOf n =
      if n ∈ numbers then (g.taskOf n).map g.goOn else g.taskOf n := by
  induction numbers with
  | nil => exact fun _ => rfl
  | cons k rest ih =>
    intro g
    obtain ⟨hfirst, hrest⟩ := List.nodup_cons.1 hnodup
    rw [List.foldl_cons, ih hrest, goOn_runTask, taskOf_runTask]
    by_cases heq : n = k
    · subst heq
      rw [if_neg hfirst, if_pos rfl, if_pos List.mem_cons_self]
    · rw [if_neg heq]
      simp only [List.mem_cons, heq, false_or]

theorem taskOf_runTasks (hg : g.Numbered) (n : Nat) :
    g.runTasks.taskOf n = (g.taskOf n).map g.goOn := by
  have hnodup : (g.tasks.map Task.number).Nodup := hg ▸ List.nodup_range
  unfold runTasks
  rw [taskOf_foldl_runTask hnodup]
  split
  · rfl
  · next hn =>
    cases htask : g.taskOf n with
    | none => rfl
    | some t =>
      obtain ⟨ht, hnumber⟩ := mem_of_taskOf htask
      exact absurd (List.mem_map.2 ⟨t, ht, hnumber⟩) hn

theorem runTasks_frame (g : Group) :
    (∀ name, g.runTasks.behaviourOf name = g.behaviourOf name) ∧ g.runTasks.now = g.now := by
  have hall : ∀ (numbers : List Nat) (g : Group),
      (∀ name, (numbers.foldl runTask g).behaviourOf name = g.behaviourOf name) ∧
        (numbers.foldl runTask g).now = g.now := by
    intro numbers
    induction numbers with
    | nil => exact fun _ => ⟨fun _ => rfl, rfl⟩
    | cons n rest ih =>
      intro g
      obtain ⟨hbehaviour, hnow⟩ := ih (g.runTask n)
      exact ⟨fun name => (hbehaviour name).trans (behaviourOf_runTask g n name),
        hnow.trans (runTask_frame g n).2⟩
  exact hall _ g

end

theorem behaviourOf_foldl_handOut (now : Nat) (name : String) (numbered : List (String × Nat)) :
    ∀ members : SortedMap String Member,
      ((numbered.foldl (handOut now) members).get? name).map Member.behaviour =
        (members.get? name).map Member.behaviour := by
  induction numbered with
  | nil => exact fun _ => rfl
  | cons e rest ih =>
    intro members
    rw [List.foldl_cons, ih]
    by_cases hname : name = e.1
    · subst hname
      unfold handOut
      split
      · next m hm =>
        rw [SortedMap.get?_insert, if_pos (Std.LawfulEqOrd.compare_eq_iff_eq.2 rfl), hm]
        rfl
      · rfl
    · rw [get?_handOut_of_ne hname]

/-! ## The tasks that a stop takes over -/

/-- The tasks that a stop takes over now, by the names of their services. -/
def taken (g : Group) : List (String × Nat) :=
  g.members.entries.filterMap fun (name, m) => m.task.map fun n => (name, n)

theorem mem_taken {g : Group} {e : String × Nat} : e ∈ g.taken ↔ g.held e.1 = some e.2 := by
  obtain ⟨name, n⟩ := e
  unfold taken held
  rw [List.mem_filterMap, Option.bind_eq_some_iff]
  constructor
  · rintro ⟨⟨name', m⟩, hm, heq⟩
    obtain ⟨n', hn', hpair⟩ := Option.map_eq_some_iff.1 heq
    obtain ⟨rfl, rfl⟩ := Prod.mk.inj hpair
    exact ⟨m, SortedMap.mem_entries_iff.1 hm, hn'⟩
  · rintro ⟨m, hm, hn⟩
    exact ⟨(name, m), SortedMap.mem_entries_iff.2 hm, by simp [hn]⟩

theorem pairwise_taken (g : Group) : g.taken.Pairwise fun x y => x.1 < y.1 := by
  unfold taken
  refine List.pairwise_filterMap.2 (g.members.ascending.imp fun {x y} hlt e he e' he' => ?_)
  obtain ⟨-, -, rfl⟩ := Option.map_eq_some_iff.1 he
  obtain ⟨-, -, rfl⟩ := Option.map_eq_some_iff.1 he'
  exact compareOfLessAndEq_eq_lt.1 hlt

/-- What the group holds for a service is a task of that service. -/
def Owned (g : Group) : Prop :=
  ∀ name n, g.held name = some n → ∃ t, g.taskOf n = some t ∧ t.name = name

theorem GoesOn.owned {g g' : Group} (h : GoesOn g g') (hg : g.Owned) : g'.Owned := by
  obtain ⟨f, hf, hsame, -⟩ := h.tasks
  intro name n hheld
  obtain ⟨t, ht, hname⟩ := hg name n ((h.held name).symm.trans hheld)
  refine ⟨f t, ?_, (hsame t).2.trans hname⟩
  have hnumber : ((fun t : Task => t.number == n) ∘ f) = fun t => t.number == n :=
    funext fun t => congrArg (· == n) (hsame t).1
  unfold taskOf
  rw [hf, List.find?_map, hnumber]
  exact congrArg (Option.map f) ht

theorem Owned.begun {g : Group} (htidy : Tidy g) (h : g.Owned) (e : Event) : (g.begun e).Owned := by
  cases e with
  | register name b =>
    simp only [Group.begun]
    cases hregister : g.register name b with
    | error x => exact h
    | ok g' =>
      obtain ⟨-, rfl⟩ := register_eq_ok hregister
      intro name' n hheld
      rw [held, SortedMap.get?_insert] at hheld
      split at hheld
      · cases hheld
      · exact h name' n hheld
  | start =>
    simp only [Group.begun]
    cases hstart : g.start with
    | error x => exact h
    | ok g' =>
      have hnumbered := numbered_start htidy.numbered hstart
      have hnew := fun t => @held_of_mem_generation g g' hstart t
      obtain ⟨hidle, rfl⟩ := start_eq_ok hstart
      intro name n hheld
      by_cases hname : name ∈ g.generation.map Task.name
      · obtain ⟨t, ht, rfl⟩ := List.mem_map.1 hname
        obtain rfl := Option.some.inj ((hnew t ht).symm.trans hheld)
        exact ⟨t, taskOf_of_mem hnumbered (List.mem_append_right _ ht), rfl⟩
      · -- a service without a new task has none at all
        have hnames : g.generation.map Task.name =
            (g.members.keys.zipIdx g.tasks.length).map (·.1) := by
          rw [generation, List.map_map]
          rfl
        rw [hnames] at hname
        rw [held, get?_foldl_handOut_of_not_mem hname] at hheld
        cases (isRunning_eq_false.1 hidle name).symm.trans hheld
  | stop =>
    intro name n hheld
    cases (held_stop g g.calls name).symm.trans hheld
  | advance time => exact h

theorem Owned.run (events : List Event) : ∀ {g : Group}, Tidy g → g.Owned → (g.run events).1.Owned := by
  induction events with
  | nil => exact fun _ h => h
  | cons e rest ih =>
    intro g htidy h
    have hclock : ∀ (m : Group) t, Tidy m ∧ m.Owned → Tidy { m with now := t } ∧ m.Owned :=
      fun _ t hm => ⟨hm.1.clock t, hm.2⟩
    have hsettle : ∀ m, Tidy m ∧ m.Owned → Tidy m.settle.1 ∧ m.settle.1.Owned := fun m hm =>
      ⟨hm.1.settle, (settle_goesOn hm.1.numbered m.now m.calls).owned hm.2⟩
    obtain ⟨htidy', h'⟩ := (passing_of hclock hsettle (g.due e) ⟨htidy.begun e, h.begun htidy e⟩).2
    rw [← (step_eq g e).1] at htidy' h'
    exact ih htidy' h'

/-! ## Where they are -/

/-- In a group `m` that `g` has become by a stop, and by what came after it, every task taken over is
where it should be. -/
structure Traces (g m : Group) : Prop extends Keeps g m where
  now_le : g.now ≤ m.now
  behaviour : ∀ name b, g.behaviourOf name = some b → m.behaviourOf name = some b
  task : ∀ name n, g.held name = some n →
    ∃ t, m.taskOf n = some t ∧ t.name = name ∧ t.phase = (g.endingOf name).phaseAt m.now

/-- It will be there once the group has settled. -/
structure Moving (g m : Group) : Prop extends Keeps g m where
  now_le : g.now ≤ m.now
  behaviour : ∀ name b, g.behaviourOf name = some b → m.behaviourOf name = some b
  task : ∀ name n, g.held name = some n →
    ∃ t, m.taskOf n = some t ∧ t.name = name ∧
      (m.goOn t).phase = (g.endingOf name).phaseAt m.now

theorem behaviourOf_of_held {g : Group} {name : String} {n : Nat} (h : g.held name = some n) :
    ∃ b, g.behaviourOf name = some b := by
  obtain ⟨m, hm, -⟩ := Option.bind_eq_some_iff.1 h
  exact ⟨m.behaviour, by unfold behaviourOf; rw [hm]; rfl⟩

theorem endingOf_eq {g : Group} {name : String} {n : Nat} {t : Task} {b : ServiceBehaviour}
    (hheld : g.held name = some n) (ht : g.taskOf n = some t) (hb : g.behaviourOf name = some b) :
    g.endingOf name = t.phase.ending b g.now := by
  unfold endingOf
  rw [hb, hheld]
  simp only [Option.bind_some, ht]

/-- The stop sets the tasks on their way. -/
theorem Moving.stop {g : Group} (htidy : Tidy g) (howned : g.Owned) : Moving g (g.begun .stop) where
  toKeeps := .stop htidy
  now_le := Nat.le_refl _
  behaviour name b hb := by
    unfold behaviourOf at hb ⊢
    show ((g.members.mapValues _).get? name).map _ = _
    rw [SortedMap.get?_mapValues, Option.map_map]
    exact hb
  task name n hheld := by
    obtain ⟨t, ht, hname⟩ := howned name n hheld
    obtain ⟨b, hb⟩ := behaviourOf_of_held hheld
    have hb' : (g.begun .stop).behaviourOf t.name = some b := by
      unfold behaviourOf at hb ⊢
      show ((g.members.mapValues _).get? t.name).map _ = _
      rw [SortedMap.get?_mapValues, Option.map_map, hname]
      exact hb
    refine ⟨t, ht, hname, ?_⟩
    unfold goOn
    rw [hb', endingOf_eq hheld ht hb]
    exact Phase.next_requested b g.now t.phase

namespace Moving

variable {g m : Group}

theorem exists_taskOf_runTasks (h : Moving g m) {name : String} {n : Nat}
    (hheld : g.held name = some n) :
    ∃ t, m.runTasks.taskOf n = some t ∧ t.name = name ∧
      t.phase = (g.endingOf name).phaseAt m.now := by
  obtain ⟨t, ht, hname, hphase⟩ := h.task name n hheld
  refine ⟨m.goOn t, ?_, ?_, hphase⟩
  · rw [taskOf_runTasks h.numbered, ht]
    rfl
  · unfold goOn
    split <;> exact hname

theorem settle (h : Moving g m) : Traces g m.settle.1 where
  toKeeps := h.toKeeps.settle
  now_le := Nat.le_trans h.now_le (Nat.le_of_eq (runTasks_frame m).2.symm)
  behaviour name b hb := ((runTasks_frame m).1 name).trans (h.behaviour name b hb)
  task name n hheld := by
    show ∃ t, m.runTasks.taskOf n = some t ∧ t.name = name ∧
      t.phase = (g.endingOf name).phaseAt m.runTasks.now
    rw [(runTasks_frame m).2]
    exact h.exists_taskOf_runTasks hheld

/-- A task taken over has ended from its time on, and not before. -/
theorem hasEnded_eq (h : Moving g m) {name : String} {n : Nat} (hheld : g.held name = some n) :
    m.runTasks.hasEnded n = (g.endingOf name).endedBy m.now := by
  obtain ⟨t, ht, -, hphase⟩ := h.exists_taskOf_runTasks hheld
  have hnumbered := (runTasks_goesOn h.numbered).numbered h.numbered
  rw [hasEnded_eq_of_taskOf hnumbered ht, Bool.eq_iff_iff, ← Ending.phaseAt_eq_ended, ← hphase]
  unfold Task.hasEnded
  exact decide_eq_true_iff

end Moving

namespace Traces

variable {g m : Group}

theorem begun (htidy : Tidy g) (h : Traces g m) (e : Event) : Traces g (m.begun e) := by
  have hkeeps := h.toKeeps.begun htidy e
  have hsame : ∀ m' : Group, Keeps g m' → m'.now = m.now →
      (∀ name b, m.behaviourOf name = some b → m'.behaviourOf name = some b) →
      (∀ n t, m.taskOf n = some t → m'.taskOf n = some t) → Traces g m' := by
    intro m' hkeeps hnow hbehaviour htask
    refine ⟨hkeeps, hnow ▸ h.now_le, fun name b hb => hbehaviour name b (h.behaviour name b hb),
      fun name n hheld => ?_⟩
    obtain ⟨t, ht, hname, hphase⟩ := h.task name n hheld
    exact ⟨t, htask n t ht, hname, hnow ▸ hphase⟩
  cases e with
  | register name b =>
    simp only [Group.begun] at hkeeps ⊢
    cases hregister : m.register name b with
    | error x =>
      rw [hregister] at hkeeps
      exact hsame _ hkeeps rfl (fun _ _ hb => hb) fun _ _ ht => ht
    | ok m' =>
      rw [hregister] at hkeeps
      obtain ⟨hnew, rfl⟩ := register_eq_ok hregister
      refine hsame _ hkeeps rfl (fun name' b' hb' => ?_) fun _ _ ht => ht
      unfold behaviourOf at hb' ⊢
      rw [SortedMap.get?_insert, if_neg]
      · exact hb'
      · intro hname
        rw [Std.LawfulEqOrd.compare_eq_iff_eq] at hname
        rw [SortedMap.contains, Option.isSome_eq_false_iff, Option.isNone_iff_eq_none] at hnew
        rw [hname, hnew] at hb'
        cases hb'
  | start =>
    simp only [Group.begun] at hkeeps ⊢
    cases hstart : m.start with
    | error x =>
      rw [hstart] at hkeeps
      exact hsame _ hkeeps rfl (fun _ _ hb => hb) fun _ _ ht => ht
    | ok m' =>
      rw [hstart] at hkeeps
      obtain ⟨-, rfl⟩ := start_eq_ok hstart
      refine hsame _ hkeeps rfl (fun name b hb => ?_) fun n t ht => ?_
      · exact (behaviourOf_foldl_handOut m.now name _ m.members).trans hb
      · unfold taskOf at ht ⊢
        rw [List.find?_append, ht]
        rfl
  | stop =>
    refine hsame _ hkeeps rfl (fun name b hb => ?_) fun _ _ ht => ht
    unfold behaviourOf at hb ⊢
    show ((m.members.mapValues _).get? name).map _ = _
    rw [SortedMap.get?_mapValues, Option.map_map]
    exact hb
  | advance time => exact h

/-- The clock goes forwards only. -/
theorem clock (howned : g.Owned) (h : Traces g m) {t : Nat} (hle : m.now ≤ t) :
    Moving g { m with now := t } where
  toKeeps := h.toKeeps.clock t
  now_le := Nat.le_trans h.now_le hle
  behaviour := h.behaviour
  task name n hheld := by
    obtain ⟨u, hu, hname, hphase⟩ := h.task name n hheld
    obtain ⟨b, hb⟩ := behaviourOf_of_held hheld
    refine ⟨u, hu, hname, ?_⟩
    have hb' : ({ m with now := t } : Group).behaviourOf u.name = some b :=
      hname ▸ h.behaviour name b hb
    unfold goOn
    rw [hb', hphase]
    refine Ending.next_phaseAt hle (fun hnever => ?_) m.stopRequested
    obtain ⟨v, hv, -⟩ := howned name n hheld
    rw [endingOf_eq hheld hv hb] at hnever
    exact Phase.ne_untilStopped_of_never hnever

end Traces

end Historian.Group
