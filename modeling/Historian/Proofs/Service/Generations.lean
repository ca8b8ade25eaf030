import Mathlib.Data.List.Nodup
import Historian.Service.Group

/-!
# Generations of tasks

Every start makes a generation of tasks, one for each service.  A stop takes tasks over before they
have ended, so a start that comes too early makes the next generation while there are still tasks of
an earlier one.

* `Group.GoesOn` — what settling does to tasks: none begins again, and the group keeps its own.
* `Group.Sound` — every unfinished task is the group's own, or a stop waits for it, or has been
  answered that it is late; and no stop waits for nothing.
* `Group.Sound.step`, `Group.run_sound` — no event breaks this, so it holds after every run.
* `Group.run_start_iff` — when a start meets no task of an earlier generation, and what follows if
  no start does.
-/

set_option autoImplicit false

namespace Historian.Group

/-- The task of a service that the group counts as its own. -/
def held (g : Group) (name : String) : Option Nat := (g.members.get? name).bind Member.task

theorem isRunning_eq_false {g : Group} : g.isRunning = false ↔ ∀ name, g.held name = none := by
  rw [isRunning, List.any_eq_false]
  constructor
  · intro h name
    rw [held, Option.bind_eq_none_iff]
    intro m hm
    simpa using h m (SortedMap.mem_values_iff.2 ⟨name, hm⟩)
  · intro h m hm
    obtain ⟨name, hname⟩ := SortedMap.mem_values_iff.1 hm
    have hheld := h name
    rw [held, hname] at hheld
    simpa using hheld

theorem exists_of_hasEnded_eq_false {g : Group} {number : Nat} (h : g.hasEnded number = false) :
    ∃ t ∈ g.tasks, t.hasEnded = false := by
  rw [hasEnded, List.all_eq_false] at h
  obtain ⟨t, ht, hrun⟩ := h
  exact ⟨t, ht, (show t.number = number ∧ t.hasEnded = false by simpa using hrun).2⟩

theorem hasEnded_eq_false {g : Group} {t : Task} (ht : t ∈ g.tasks) (hrun : t.hasEnded = false) :
    g.hasEnded t.number = false :=
  List.all_eq_false.2 ⟨t, ht, by simp [hrun]⟩

/-- Tasks are numbered in the order in which they are made. -/
def Numbered (g : Group) : Prop := g.tasks.map Task.number = List.range g.tasks.length

theorem Numbered.eq {g : Group} (h : g.Numbered) {t u : Task} (ht : t ∈ g.tasks) (hu : u ∈ g.tasks)
    (hnumber : t.number = u.number) : t = u := by
  have hnodup : (g.tasks.map Task.number).Nodup := h ▸ List.nodup_range
  exact List.inj_on_of_nodup_map hnodup ht hu hnumber

/-! ## Going on -/

/-- Tasks and stops have gone on: no task has begun again or changed hands. -/
structure GoesOn (g g' : Group) : Prop where
  tasks : ∃ f : Task → Task, g'.tasks = g.tasks.map f ∧
    (∀ t, (f t).number = t.number ∧ (f t).name = t.name) ∧
    ∀ t ∈ g.tasks, t.hasEnded = true → (f t).hasEnded = true
  held : ∀ name, g'.held name = g.held name
  stopRequested : g'.stopRequested = g.stopRequested

namespace GoesOn

variable {g g' g'' : Group}

theorem refl (g : Group) : GoesOn g g where
  tasks := ⟨id, (List.map_id _).symm, fun _ => ⟨rfl, rfl⟩, fun _ _ h => h⟩
  held _ := rfl
  stopRequested := rfl

theorem trans (h : GoesOn g g') (h' : GoesOn g' g'') : GoesOn g g'' := by
  obtain ⟨f, hf, hsame, hended⟩ := h.tasks
  obtain ⟨f', hf', hsame', hended'⟩ := h'.tasks
  refine ⟨⟨f' ∘ f, by rw [hf', hf, List.map_map], fun t => ?_, fun t ht he => ?_⟩,
    fun name => (h'.held name).trans (h.held name), h'.stopRequested.trans h.stopRequested⟩
  · exact ⟨(hsame' _).1.trans (hsame t).1, (hsame' _).2.trans (hsame t).2⟩
  · exact hended' _ (hf ▸ List.mem_map_of_mem ht) (hended t ht he)

theorem numbered (h : GoesOn g g') (hg : g.Numbered) : g'.Numbered := by
  obtain ⟨f, hf, hsame, -⟩ := h.tasks
  have hnumber : Task.number ∘ f = Task.number := funext fun t => (hsame t).1
  rw [Numbered, hf, List.map_map, hnumber, List.length_map]
  exact hg

/-- An unfinished task was there before, and unfinished. -/
theorem exists_before (h : GoesOn g g') {t : Task} (ht : t ∈ g'.tasks) (hrun : t.hasEnded = false) :
    ∃ u ∈ g.tasks, u.hasEnded = false ∧ u.number = t.number ∧ u.name = t.name := by
  obtain ⟨f, hf, hsame, hended⟩ := h.tasks
  rw [hf] at ht
  obtain ⟨u, hu, rfl⟩ := List.mem_map.1 ht
  refine ⟨u, hu, ?_, (hsame u).1.symm, (hsame u).2.symm⟩
  cases hdone : u.hasEnded with
  | false => rfl
  | true => exact absurd (hended u hu hdone) (by simp [hrun])

end GoesOn

/-- A task that has ended stays so. -/
theorem Phase.next_ended (b : ServiceBehaviour) (stopRequested : Bool) (now : Nat) :
    Phase.next b stopRequested now .ended = .ended := rfl

theorem runTask_goesOn {g : Group} (hg : g.Numbered) (number : Nat) :
    GoesOn g (g.runTask number) := by
  unfold runTask
  split
  · exact .refl g
  · next t hfind =>
    split
    · exact .refl g
    · next m hm =>
      have hmem := List.mem_of_find?_eq_some hfind
      have hnumber : t.number = number := by simpa using List.find?_some hfind
      refine ⟨⟨_, rfl, fun u => ?_, fun u hu hended => ?_⟩, fun name => ?_, rfl⟩
      · split <;> exact ⟨rfl, rfl⟩
      · split
        · next hu' =>
          -- no other task has this number
          obtain rfl := hg.eq hu hmem (hu'.trans hnumber.symm)
          have hphase : u.phase = .ended := by simpa [Task.hasEnded] using hended
          simp [Task.hasEnded, hphase, Phase.next_ended]
        · exact hended
      · rw [held, held, SortedMap.get?_insert]
        split
        · next hname =>
          obtain rfl : name = t.name := Std.LawfulEqOrd.compare_eq_iff_eq.1 hname
          rw [hm]
          rfl
        · rfl

theorem runTask_stops (g : Group) (number : Nat) : (g.runTask number).stops = g.stops := by
  unfold runTask
  split
  · rfl
  · split <;> rfl

theorem runTasks_goesOn {g : Group} (hg : g.Numbered) : GoesOn g g.runTasks := by
  have hall : ∀ (numbers : List Nat) {g : Group}, g.Numbered → GoesOn g (numbers.foldl runTask g) := by
    intro numbers
    induction numbers with
    | nil => exact fun _ => .refl _
    | cons n rest ih =>
      intro g hg
      have hstep := runTask_goesOn hg n
      exact hstep.trans (ih (hstep.numbered hg))
  exact hall _ hg

theorem runTasks_stops (g : Group) : g.runTasks.stops = g.stops := by
  have hall : ∀ (numbers : List Nat) (g : Group), (numbers.foldl runTask g).stops = g.stops := by
    intro numbers
    induction numbers with
    | nil => exact fun _ => rfl
    | cons n rest ih => exact fun g => (ih _).trans (runTask_stops g n)
  exact hall _ g

/-! ## Stops -/

/-- A stop waits for the task, or will be answered that it is late. -/
def Stopping.Awaits (s : Stopping) (t : Task) : Prop :=
  (t.name, t.number) ∈ s.awaited ∨ t.name ∈ s.late

/-- A stop has been answered that the service is late. -/
def ReportedLate (answers : List Answer) (name : String) : Prop :=
  ∃ call names, (call, .error (.late names)) ∈ answers ∧ name ∈ names

theorem ReportedLate.mono {answers answers' : List Answer} {name : String}
    (h : ReportedLate answers name) (hsub : answers ⊆ answers') : ReportedLate answers' name := by
  obtain ⟨call, names, hcall, hname⟩ := h
  exact ⟨call, names, hsub hcall, hname⟩

/-- What waiting in turn leaves: the unfinished tasks, waited for or late. -/
theorem awaitInTurn_spec (g : Group) (deadline : Nat) (awaited : List (String × Nat)) :
    ∀ late, late ⊆ (g.awaitInTurn deadline awaited late).2 ∧
      (∀ name n, (name, n) ∈ awaited → g.hasEnded n = false →
        (name, n) ∈ (g.awaitInTurn deadline awaited late).1 ∨
          name ∈ (g.awaitInTurn deadline awaited late).2) ∧
      ∀ e ∈ (g.awaitInTurn deadline awaited late).1.head?, g.hasEnded e.2 = false := by
  induction awaited with
  | nil => exact fun late => ⟨fun _ h => h, by simp, by simp [awaitInTurn]⟩
  | cons e rest ih =>
    intro late
    obtain ⟨name, n⟩ := e
    rw [awaitInTurn]
    split
    · next hended =>
      obtain ⟨hlate, hleft, hhead⟩ := ih late
      refine ⟨hlate, fun name' n' hmem hrun => ?_, hhead⟩
      rcases List.mem_cons.1 hmem with h | h
      · obtain ⟨rfl, rfl⟩ := Prod.mk.inj h
        rw [hended] at hrun
        exact absurd hrun (by decide)
      · exact hleft name' n' h hrun
    · next hrun =>
      split
      · obtain ⟨hlate, hleft, hhead⟩ := ih (late ++ [name])
        refine ⟨fun x hx => hlate (List.mem_append_left _ hx), fun name' n' hmem hrun' => ?_, hhead⟩
        rcases List.mem_cons.1 hmem with h | h
        · obtain ⟨rfl, rfl⟩ := Prod.mk.inj h
          exact .inr (hlate (by simp))
        · exact hleft name' n' h hrun'
      · refine ⟨fun _ h => h, fun _ _ h _ => .inl h, ?_⟩
        simpa using hrun

/-- A stop that goes on waiting waits for an unfinished task. -/
theorem exists_of_pollStop {g : Group} {s s' : Stopping} (h : g.pollStop s = .inl s') :
    ∃ t ∈ g.tasks, t.hasEnded = false := by
  obtain ⟨-, -, hhead⟩ := awaitInTurn_spec g s.deadline s.awaited s.late
  unfold pollStop at h
  split at h
  · cases h
  · cases h
  · next awaited late hnone hlate heq =>
    rw [heq] at hhead
    cases awaited with
    | nil => exact (hlate rfl).elim
    | cons e rest => exact exists_of_hasEnded_eq_false (hhead e rfl)

/-- A stop forgets no unfinished task without saying so. -/
theorem Stopping.Awaits.poll {g : Group} {s : Stopping} {t : Task} (h : s.Awaits t)
    (ht : t ∈ g.tasks) (hrun : t.hasEnded = false) :
    (∃ s', g.pollStop s = .inl s' ∧ s'.Awaits t) ∨
      ∃ a, g.pollStop s = .inr a ∧ ReportedLate [a] t.name := by
  obtain ⟨hlate, hleft, -⟩ := awaitInTurn_spec g s.deadline s.awaited s.late
  have hkept : (t.name, t.number) ∈ (g.awaitInTurn s.deadline s.awaited s.late).1 ∨
      t.name ∈ (g.awaitInTurn s.deadline s.awaited s.late).2 := by
    rcases h with h | h
    · exact hleft _ _ h (hasEnded_eq_false ht hrun)
    · exact .inr (hlate h)
  unfold pollStop
  split
  · next heq =>
    rw [heq] at hkept
    simp at hkept
  · next late _ heq =>
    rw [heq] at hkept
    exact .inr ⟨_, rfl, s.call, late, by simp, by simpa using hkept⟩
  · next awaited late _ _ heq =>
    rw [heq] at hkept
    exact .inl ⟨_, rfl, hkept⟩

/-! ## What holds of every group -/

/-- Every unfinished task is accounted for. -/
def Accounted (g : Group) (answers : List Answer) : Prop :=
  ∀ t ∈ g.tasks, t.hasEnded = false →
    g.held t.name = some t.number ∨ (∃ s ∈ g.stops, s.Awaits t) ∨ ReportedLate answers t.name

/-- Every unfinished task is accounted for, and no stop waits for nothing. -/
structure Sound (g : Group) (answers : List Answer) : Prop where
  numbered : g.Numbered
  accounted : g.Accounted answers
  waiting : ∀ s ∈ g.stops, ∃ t ∈ g.tasks, t.hasEnded = false

theorem Accounted.mono {g : Group} {answers answers' : List Answer} (h : g.Accounted answers)
    (hsub : answers ⊆ answers') : g.Accounted answers' :=
  fun t ht hrun => (h t ht hrun).imp_right (Or.imp_right fun hlate => hlate.mono hsub)

/-- The clock and the count of calls are of no account. -/
theorem settle_goesOn {g : Group} (hg : g.Numbered) (now calls : Nat) :
    GoesOn g { g with now := now, calls := calls }.settle.1 :=
  have h := @runTasks_goesOn { g with now := now, calls := calls } hg
  ⟨h.tasks, h.held, h.stopRequested⟩

/-- Settling forgets no unfinished task. -/
theorem Accounted.settle {g : Group} {answers : List Answer} (h : g.Accounted answers)
    (hg : g.Numbered) : Sound g.settle.1 (answers ++ g.settle.2) := by
  have hruns := runTasks_goesOn hg
  refine ⟨(settle_goesOn hg g.now g.calls).numbered hg, fun t ht hrun => ?_, fun s hs => ?_⟩
  · have ht : t ∈ g.runTasks.tasks := ht
    obtain ⟨u, hu, hrunu, hnumber, hname⟩ := hruns.exists_before ht hrun
    rcases h u hu hrunu with hheld | ⟨s, hs, hawaits⟩ | hlate
    · refine .inl (((hruns.held t.name).trans ?_))
      rw [← hname, ← hnumber, hheld]
    · have hawaits' : s.Awaits t := by
        unfold Stopping.Awaits at hawaits ⊢
        rwa [← hname, ← hnumber]
      have hs' : s ∈ g.runTasks.stops := (runTasks_stops g).symm ▸ hs
      rcases hawaits'.poll ht hrun with ⟨s', hpoll, hs''⟩ | ⟨a, hpoll, hlate⟩
      · exact .inr (.inl ⟨s', List.mem_filterMap.2 ⟨_, List.mem_map.2 ⟨s, hs', hpoll⟩, rfl⟩, hs''⟩)
      · have ha : a ∈ g.settle.2 := List.mem_filterMap.2 ⟨_, List.mem_map.2 ⟨s, hs', hpoll⟩, rfl⟩
        exact .inr (.inr (hlate.mono fun x hx =>
          List.mem_append_right _ (List.mem_singleton.1 hx ▸ ha)))
    · exact .inr (.inr (hname ▸ hlate.mono fun x hx => List.mem_append_left _ hx))
  · obtain ⟨r, hr, hleft⟩ := List.mem_filterMap.1 hs
    obtain ⟨s', -, hpoll⟩ := List.mem_map.1 hr
    cases r with
    | inr a => cases hleft
    | inl s'' => exact @exists_of_pollStop g.runTasks s' s'' hpoll

/-- As time passes, no unfinished task is forgotten. -/
theorem Accounted.passThrough (times : List Nat) (last : Nat) :
    ∀ {g : Group} {answers : List Answer}, g.Accounted answers → g.Numbered →
      Sound (g.passThrough (times ++ [last])).1
        (answers ++ (g.passThrough (times ++ [last])).2) := by
  induction times with
  | nil =>
    intro g answers h hg
    have hsound := @Accounted.settle { g with now := last } answers h hg
    show Sound { g with now := last }.settle.1 (answers ++ ({ g with now := last }.settle.2 ++ []))
    rwa [List.append_nil]
  | cons t rest ih =>
    intro g answers h hg
    have hsound := @Accounted.settle { g with now := t } answers h hg
    have hrest := ih hsound.accounted hsound.numbered
    rw [List.append_assoc] at hrest
    exact hrest

theorem passThrough_goesOn (times : List Nat) :
    ∀ {g : Group}, g.Numbered → GoesOn g (g.passThrough times).1 := by
  induction times with
  | nil => exact fun _ => .refl _
  | cons t rest ih =>
    intro g hg
    have hstep : GoesOn g { g with now := t }.settle.1 := settle_goesOn hg t g.calls
    exact hstep.trans (ih (hstep.numbered hg))

/-! ## Starting -/

/-- The tasks that a start makes. -/
def generation (g : Group) : List Task :=
  (g.members.keys.zipIdx g.tasks.length).map fun (name, number) => ⟨number, name, .fresh⟩

/-- Gives a service its task. -/
def handOut (now : Nat) (members : SortedMap String Member) (e : String × Nat) :
    SortedMap String Member :=
  match members.get? e.1 with
  | some m => members.insert e.1 { m with task := some e.2, startedAt := some now }
  | none => members

theorem get?_handOut_of_ne {now : Nat} {members : SortedMap String Member} {e : String × Nat}
    {name : String} (h : name ≠ e.1) : (handOut now members e).get? name = members.get? name := by
  unfold handOut
  split
  · rw [SortedMap.get?_insert, if_neg fun he => h (Std.LawfulEqOrd.compare_eq_iff_eq.1 he)]
  · rfl

theorem get?_handOut_self {now : Nat} {members : SortedMap String Member} {e : String × Nat}
    (h : (members.get? e.1).isSome) :
    ((handOut now members e).get? e.1).bind Member.task = some e.2 := by
  obtain ⟨m, hm⟩ := Option.isSome_iff_exists.1 h
  rw [handOut, hm, SortedMap.get?_insert, if_pos (Std.LawfulEqOrd.compare_eq_iff_eq.2 rfl)]
  rfl

theorem get?_foldl_handOut_of_not_mem {now : Nat} {numbered : List (String × Nat)} {name : String}
    (h : name ∉ numbered.map (·.1)) (members : SortedMap String Member) :
    (numbered.foldl (handOut now) members).get? name = members.get? name := by
  induction numbered generalizing members with
  | nil => rfl
  | cons e rest ih =>
    rw [List.map_cons, List.mem_cons, not_or] at h
    rw [List.foldl_cons, ih h.2, get?_handOut_of_ne h.1]

/-- Every service is given its own. -/
theorem get?_foldl_handOut {now : Nat} {numbered : List (String × Nat)}
    (hnodup : (numbered.map (·.1)).Nodup) {e : String × Nat} (he : e ∈ numbered) :
    ∀ members : SortedMap String Member, (members.get? e.1).isSome →
      ((numbered.foldl (handOut now) members).get? e.1).bind Member.task = some e.2 := by
  induction numbered with
  | nil => cases he
  | cons e' rest ih =>
    intro members hsome
    rw [List.map_cons, List.nodup_cons] at hnodup
    rw [List.foldl_cons]
    rcases List.mem_cons.1 he with rfl | he
    · rw [get?_foldl_handOut_of_not_mem hnodup.1, get?_handOut_self hsome]
    · have hne : e.1 ≠ e'.1 := fun heq => hnodup.1 (heq ▸ List.mem_map_of_mem he)
      exact ih hnodup.2 he _ (by rwa [get?_handOut_of_ne hne])

/-- What a start does, if it is not refused. -/
theorem start_eq_ok {g g' : Group} (h : g.start = .ok g') :
    g.isRunning = false ∧ g' = { g with
      stopRequested := false
      tasks := g.tasks ++ g.generation
      members := (g.members.keys.zipIdx g.tasks.length).foldl (handOut g.now) g.members } := by
  unfold start at h
  split at h
  · cases h
  · next hidle => exact ⟨by simpa using hidle, (Except.ok.inj h).symm⟩

theorem numbered_start {g g' : Group} (hg : g.Numbered) (h : g.start = .ok g') : g'.Numbered := by
  obtain ⟨-, rfl⟩ := start_eq_ok h
  have hnumbers : g.generation.map Task.number = List.range' g.tasks.length g.members.keys.length := by
    rw [generation, List.map_map, ← List.zipIdx_map_snd]
    rfl
  rw [Numbered, List.map_append, hg, hnumbers, List.length_append, generation, List.length_map,
    List.length_zipIdx, List.range_add, List.range'_eq_map_range]

/-- The group holds every task that it makes. -/
theorem held_of_mem_generation {g g' : Group} (h : g.start = .ok g') {t : Task}
    (ht : t ∈ g.generation) : g'.held t.name = some t.number := by
  obtain ⟨-, rfl⟩ := start_eq_ok h
  obtain ⟨e, he, rfl⟩ := List.mem_map.1 ht
  have hnames : (g.members.keys.zipIdx g.tasks.length).map (·.1) = g.members.keys :=
    List.zipIdx_map_fst ..
  have hkey : e.1 ∈ g.members.keys := hnames ▸ List.mem_map_of_mem he
  have hnodup : ((g.members.keys.zipIdx g.tasks.length).map (·.1)).Nodup := by
    rw [hnames]
    exact g.members.nodup_keys
  exact get?_foldl_handOut hnodup he _ (SortedMap.mem_keys_iff.1 hkey)

theorem Accounted.start {g g' : Group} {answers : List Answer} (h : g.Accounted answers)
    (hstart : g.start = .ok g') : g'.Accounted answers := by
  have hnew := fun t => @held_of_mem_generation g g' hstart t
  obtain ⟨hidle, rfl⟩ := start_eq_ok hstart
  intro t ht hrun
  rcases List.mem_append.1 ht with ht | ht
  · rcases h t ht hrun with hheld | hleft
    · rw [isRunning_eq_false.1 hidle] at hheld
      cases hheld
    · exact .inr hleft
  · exact .inl (hnew t ht)

/-! ## Every event -/

/-- A call answered at once. -/
theorem Sound.answerNow {g : Group} {answers : List Answer} (h : g.Sound answers)
    {result : Except ServiceFailure Group}
    (hresult : ∀ g', result = .ok g' → g'.Accounted answers ∧ g'.Numbered) :
    Sound (g.answerNow result).1 (answers ++ (g.answerNow result).2) := by
  cases result with
  | error e =>
    exact ⟨h.numbered, h.accounted.mono fun x hx => List.mem_append_left _ hx, h.waiting⟩
  | ok g' =>
    obtain ⟨haccounted, hnumbered⟩ := hresult g' rfl
    have hsound := @Accounted.settle { g' with calls := g.calls + 1 } (answers ++ [(g.calls, .ok ())])
      (haccounted.mono fun x hx => List.mem_append_left _ hx) hnumbered
    rw [List.append_assoc] at hsound
    exact hsound

theorem register_eq_ok {g g' : Group} {name : String} {b : ServiceBehaviour}
    (h : g.register name b = .ok g') :
    g.members.contains name = false ∧ g' = { g with members := g.members.insert name (.new b) } := by
  unfold register at h
  split at h
  · cases h
  · next hnew => exact ⟨by simpa using hnew, (Except.ok.inj h).symm⟩

/-- A new service takes no task away. -/
theorem Accounted.register {g g' : Group} {answers : List Answer} (h : g.Accounted answers)
    {name : String} {b : ServiceBehaviour} (hregister : g.register name b = .ok g') :
    g'.Accounted answers := by
  obtain ⟨hnew, rfl⟩ := register_eq_ok hregister
  intro t ht hrun
  refine (h t ht hrun).imp_left fun hheld => ?_
  rw [held, SortedMap.get?_insert, if_neg]
  · exact hheld
  · intro hname
    rw [Std.LawfulEqOrd.compare_eq_iff_eq] at hname
    rw [SortedMap.contains, Option.isSome_eq_false_iff, Option.isNone_iff_eq_none] at hnew
    rw [held, hname, hnew] at hheld
    cases hheld

/-- A stop takes over what the group holds. -/
theorem Accounted.stop {g : Group} {answers : List Answer} (h : g.Accounted answers) (call : Nat) :
    (g.stop call).Accounted answers := by
  intro t ht hrun
  rcases h t ht hrun with hheld | ⟨s, hs, hawaits⟩ | hlate
  · obtain ⟨m, hm, htask⟩ := Option.bind_eq_some_iff.1 hheld
    refine .inr (.inl ⟨_, List.mem_append_right _ List.mem_cons_self, .inl ?_⟩)
    exact List.mem_filterMap.2 ⟨(t.name, m), SortedMap.mem_entries_iff.2 hm, by simp [htask]⟩
  · exact .inr (.inl ⟨s, List.mem_append_left _ hs, hawaits⟩)
  · exact .inr (.inr hlate)

theorem Sound.step {g : Group} {answers : List Answer} (h : g.Sound answers) (e : Event) :
    Sound (g.step e).1 (answers ++ (g.step e).2) := by
  cases e with
  | register name b =>
    refine h.answerNow fun g' hg' => ⟨h.accounted.register hg', ?_⟩
    obtain ⟨-, rfl⟩ := register_eq_ok hg'
    exact h.numbered
  | start => exact h.answerNow fun g' hg' => ⟨h.accounted.start hg', numbered_start h.numbered hg'⟩
  | stop =>
    exact @Accounted.settle { g.stop g.calls with calls := g.calls + 1 } answers
      (h.accounted.stop g.calls) h.numbered
  | advance time => exact h.accounted.passThrough _ _ h.numbered

theorem sound_new (stopLimit now : Nat) : Sound (new stopLimit now) [] :=
  ⟨rfl, fun _ ht => (List.not_mem_nil ht).elim, fun _ hs => (List.not_mem_nil hs).elim⟩

theorem Sound.run (events : List Event) :
    ∀ {g : Group} {answers : List Answer}, g.Sound answers →
      Sound (g.run events).1 (answers ++ (g.run events).2) := by
  induction events with
  | nil => intro g answers h; simpa [Group.run] using h
  | cons e rest ih =>
    intro g answers h
    have hrest := ih (h.step e)
    rw [List.append_assoc] at hrest
    exact hrest

theorem run_sound (stopLimit now : Nat) (events : List Event) :
    Sound ((new stopLimit now).run events).1 ((new stopLimit now).run events).2 :=
  (sound_new stopLimit now).run events

/-! ## One generation at a time -/

/-- Every task has ended. -/
def Idle (g : Group) : Prop := ∀ t ∈ g.tasks, t.hasEnded = true

/-- A stop has not returned, or a service goes on that a stop has reported late. -/
def LeftBehind (g : Group) (answers : List Answer) : Prop :=
  g.stops ≠ [] ∨ ∃ t ∈ g.tasks, t.hasEnded = false ∧ ReportedLate answers t.name

/-- Of two tasks of a service one has ended. -/
def OneEach (g : Group) : Prop :=
  g.tasks.Pairwise fun t u => t.name = u.name → t.hasEnded = true ∨ u.hasEnded = true

/-- A group that holds no task has none unless some are left behind. -/
theorem Sound.idle_iff {g : Group} {answers : List Answer} (h : g.Sound answers)
    (hidle : g.isRunning = false) : g.Idle ↔ ¬ g.LeftBehind answers := by
  constructor
  · rintro hall (hstops | ⟨t, ht, hrun, -⟩)
    · obtain ⟨s, hs⟩ := List.exists_mem_of_ne_nil _ hstops
      obtain ⟨t, ht, hrun⟩ := h.waiting s hs
      simp [hall t ht] at hrun
    · simp [hall t ht] at hrun
  · intro hleft t ht
    cases hrun : t.hasEnded with
    | true => rfl
    | false =>
      rcases h.accounted t ht hrun with hheld | ⟨s, hs, -⟩ | hlate
      · rw [isRunning_eq_false.1 hidle] at hheld
        cases hheld
      · exact absurd (.inl (List.ne_nil_of_mem hs)) hleft
      · exact absurd (.inr ⟨t, ht, hrun, hlate⟩) hleft

theorem GoesOn.oneEach {g g' : Group} (h : GoesOn g g') (hg : g.OneEach) : g'.OneEach := by
  obtain ⟨f, hf, hsame, hended⟩ := h.tasks
  rw [OneEach, hf, List.pairwise_map]
  refine List.Pairwise.imp_of_mem (fun {t u} ht hu htu hname => ?_) hg
  rw [(hsame t).2, (hsame u).2] at hname
  exact (htu hname).imp (hended t ht) (hended u hu)

theorem OneEach.start {g g' : Group} (hall : g.Idle) (h : g.start = .ok g') : g'.OneEach := by
  obtain ⟨-, rfl⟩ := start_eq_ok h
  have hnames : g.generation.map Task.name = g.members.keys := by
    rw [generation, List.map_map]
    exact List.zipIdx_map_fst ..
  have hnodup : (g.generation.map Task.name).Nodup := hnames ▸ g.members.nodup_keys
  refine List.pairwise_append.2 ⟨?_, ?_, fun t ht _ _ _ => .inl (hall t ht)⟩
  · exact List.pairwise_of_forall_mem_list fun t ht _ _ _ => .inl (hall t ht)
  · exact (List.pairwise_map.1 hnodup).imp fun hne hname => absurd hname hne

theorem accepted_goesOn (g : Group) {g' : Group} (hg' : g'.Numbered) :
    GoesOn g' (g.answerNow (.ok g')).1 :=
  settle_goesOn hg' g'.now (g.calls + 1)

theorem refused_goesOn (g : Group) (e : ServiceFailure) : GoesOn g (g.answerNow (.error e)).1 :=
  ⟨(GoesOn.refl g).tasks, fun _ => rfl, rfl⟩

/-- An event starts a generation, or leaves the tasks and any stop request to go on. -/
theorem step_cases {g : Group} (hg : g.Numbered) (e : Event) :
    (e = .start ∧ ∃ g', g.start = .ok g' ∧ GoesOn g' (g.step e).1) ∨
      ∃ g', g'.tasks = g.tasks ∧ (g.stopRequested = true → g'.stopRequested = true) ∧
        GoesOn g' (g.step e).1 := by
  cases e with
  | register name b =>
    show _ ∨ ∃ g', _ ∧ _ ∧ GoesOn g' (g.answerNow (g.register name b)).1
    cases hregister : g.register name b with
    | error e => exact .inr ⟨g, rfl, id, refused_goesOn g e⟩
    | ok g' =>
      obtain ⟨-, hg'⟩ := register_eq_ok hregister
      have hnumbered : g'.Numbered := by rw [hg']; exact hg
      exact .inr ⟨g', by rw [hg'], by rw [hg']; exact id, accepted_goesOn g hnumbered⟩
  | start =>
    show (_ ∧ ∃ g', _ ∧ GoesOn g' (g.answerNow g.start).1) ∨
      ∃ g', _ ∧ _ ∧ GoesOn g' (g.answerNow g.start).1
    cases hg' : g.start with
    | error e => exact .inr ⟨g, rfl, id, refused_goesOn g e⟩
    | ok g' => exact .inl ⟨rfl, g', rfl, accepted_goesOn g (numbered_start hg hg')⟩
  | stop =>
    have hstop : (g.stop g.calls).Numbered := hg
    exact .inr ⟨g.stop g.calls, rfl, fun _ => rfl, settle_goesOn hstop g.now (g.calls + 1)⟩
  | advance time => exact .inr ⟨g, rfl, id, passThrough_goesOn _ hg⟩

theorem OneEach.step {g : Group} (hg : g.Numbered) (h : g.OneEach) {e : Event}
    (hstart : e = .start → ∀ g', g.start = .ok g' → g.Idle) : (g.step e).1.OneEach := by
  rcases step_cases hg e with ⟨he, g', hg', hgoes⟩ | ⟨g', htasks, -, hgoes⟩
  · exact hgoes.oneEach (.start (hstart he g' hg') hg')
  · exact hgoes.oneEach (by rwa [OneEach, htasks])

/-- Only a start takes a stop request back. -/
theorem start_of_stopRequested {g : Group} (hg : g.Numbered) {e : Event}
    (hbefore : g.stopRequested = true) (hafter : (g.step e).1.stopRequested = false) :
    e = .start ∧ ∃ g', g.start = .ok g' := by
  rcases step_cases hg e with ⟨he, g', hg', -⟩ | ⟨g', -, hkept, hgoes⟩
  · exact ⟨he, g', hg'⟩
  · rw [hgoes.stopRequested, hkept hbefore] at hafter
    cases hafter

/-! ## Whole histories -/

theorem run_concat (g : Group) (events : List Event) (e : Event) :
    g.run (events ++ [e]) =
      (((g.run events).1.step e).1, (g.run events).2 ++ ((g.run events).1.step e).2) := by
  induction events generalizing g with
  | nil => simp [Group.run]
  | cons e' rest ih => simp [Group.run, ih]

/-- No start of the history comes while something is left behind. -/
def Orderly (g : Group) (events : List Event) : Prop :=
  ∀ k, events[k]? = some .start →
    ¬ (g.run (events.take k)).1.LeftBehind (g.run (events.take k)).2

/-- No stop request is taken back before the tasks that it was made for have ended. -/
def KeepsRequests (g : Group) (events : List Event) : Prop :=
  ∀ k < events.length, (g.run (events.take k)).1.stopRequested = true →
    (g.run (events.take (k + 1))).1.stopRequested = false → (g.run (events.take k)).1.Idle

section

variable {stopLimit now : Nat} {events : List Event}

theorem run_take_succ (g : Group) {k : Nat} (hk : k < events.length) :
    (g.run (events.take (k + 1))).1 = ((g.run (events.take k)).1.step events[k]).1 := by
  rw [List.take_succ_eq_append_getElem hk, run_concat]

/-- The starts of an orderly history meet no task of an earlier generation. -/
theorem Orderly.idle (h : Orderly (new stopLimit now) events) {k : Nat}
    (hk : events[k]? = some .start) {g' : Group}
    (hstart : ((new stopLimit now).run (events.take k)).1.start = .ok g') :
    ((new stopLimit now).run (events.take k)).1.Idle :=
  ((run_sound stopLimit now (events.take k)).idle_iff (start_eq_ok hstart).1).2 (h k hk)

theorem Orderly.oneEach (h : Orderly (new stopLimit now) events) :
    ∀ k ≤ events.length, ((new stopLimit now).run (events.take k)).1.OneEach := by
  intro k
  induction k with
  | zero => exact fun _ => .nil
  | succ k ih =>
    intro hk
    rw [run_take_succ _ hk]
    refine (ih (Nat.le_of_lt hk)).step (run_sound stopLimit now _).numbered fun he g' hstart => ?_
    exact h.idle (by rw [List.getElem?_eq_getElem hk, he]) hstart

theorem Orderly.keepsRequests (h : Orderly (new stopLimit now) events) :
    KeepsRequests (new stopLimit now) events := by
  intro k hk hbefore hafter
  rw [run_take_succ _ hk] at hafter
  obtain ⟨he, g', hstart⟩ :=
    start_of_stopRequested (run_sound stopLimit now _).numbered hbefore hafter
  exact h.idle (by rw [List.getElem?_eq_getElem hk, he]) hstart

end

/-- The two calls that are answered at once. -/
def Event.IsImmediate : Event → Prop
  | register .. => True
  | start => True
  | _ => False

/-- Whatever is refused changes nothing. -/
theorem step_refused {g : Group} {e : Event} (he : e.IsImmediate) {x : ServiceFailure}
    (h : (g.step e).2.head? = some (g.calls, .error x)) :
    g.step e = ({ g with calls := g.calls + 1 }, [(g.calls, .error x)]) := by
  have hnow : ∀ result, (g.answerNow result).2.head? = some (g.calls, .error x) →
      g.answerNow result = ({ g with calls := g.calls + 1 }, [(g.calls, .error x)]) := by
    intro result hhead
    cases result with
    | error y =>
      obtain rfl : y = x := by simpa [answerNow] using hhead
      rfl
    | ok g' => simp [answerNow] at hhead
  cases e with
  | register name b => exact hnow _ h
  | start => exact hnow _ h
  | stop => cases he
  | advance time => cases he

/-- A start meets no task of an earlier generation exactly if the group still holds its own or
nothing is left behind; without a start that does, no service has two tasks at once, and no stop
request is taken back too early. -/
theorem run_start_iff (stopLimit now : Nat) (events : List Event) :
    let g := ((new stopLimit now).run events).1
    let answers := ((new stopLimit now).run events).2
    ((∀ g', g.start = .ok g' → g.Idle) ↔ (g.isRunning = false → ¬ g.LeftBehind answers)) ∧
      (Orderly (new stopLimit now) events → g.OneEach ∧ KeepsRequests (new stopLimit now) events) ∧
      ∀ e x, e.IsImmediate → (g.step e).2.head? = some (g.calls, .error x) →
        g.step e = ({ g with calls := g.calls + 1 }, [(g.calls, .error x)]) := by
  intro g answers
  have hsound : g.Sound answers := run_sound stopLimit now events
  refine ⟨⟨fun h hidle => ?_, fun h g' hstart => ?_⟩, fun h => ⟨?_, h.keepsRequests⟩,
    fun e x he => step_refused he⟩
  · have hstart : ∃ g', g.start = .ok g' := by
      unfold start
      rw [if_neg (by simp [hidle])]
      exact ⟨_, rfl⟩
    obtain ⟨g', hg'⟩ := hstart
    exact (hsound.idle_iff hidle).1 (h g' hg')
  · have hidle := (start_eq_ok hstart).1
    exact (hsound.idle_iff hidle).2 (h hidle)
  · have hone := h.oneEach events.length (Nat.le_refl _)
    rwa [List.take_length] at hone

/-- A service that takes its time to end, and a start once it has. -/
theorem run_start_iff_after_stop :
    let events : List Event := [.register "poller" (.untilStopped 10 .stopped), .start, .stop,
      .advance 20, .start]
    let g := ((new 1000 0).run events).1
    Orderly (new 1000 0) events ∧ g.tasks.length = 2 ∧ g.OneEach ∧
      KeepsRequests (new 1000 0) events := by
  intro events g
  have horderly : Orderly (new 1000 0) events := by
    have hclear : ∀ k ∈ [1, 4], ((new 1000 0).run (events.take k)).1.stops = [] ∧
        ∀ t ∈ ((new 1000 0).run (events.take k)).1.tasks, t.hasEnded = true := by
      decide +kernel
    intro k hk
    have hstart : k ∈ [1, 4] := by
      rcases k with _ | _ | _ | _ | _ | k <;> simp [events] at hk ⊢
    obtain ⟨hstops, hall⟩ := hclear k hstart
    rintro (hne | ⟨t, ht, hrun, -⟩)
    · exact hne hstops
    · rw [hall t ht] at hrun
      cases hrun
  obtain ⟨-, hgenerations, -⟩ := run_start_iff 1000 0 events
  exact ⟨horderly, by decide +kernel, hgenerations horderly⟩

/-- A service that has been reported late, and a start while it goes on. -/
theorem run_start_while_late :
    let events : List Event := [.register "poller" (.forTime 3600000 .stopped), .start, .stop,
      .advance 2000]
    let g := ((new 1000 0).run events).1
    g.stopRequested = true ∧ ¬ g.Idle ∧ (g.step .start).2 = [(3, .ok ())] ∧
      (g.step .start).1.stopRequested = false ∧ ¬ (g.step .start).1.OneEach := by
  intro events g
  refine ⟨by decide +kernel, ?_, by decide +kernel, by decide +kernel, ?_⟩
  · unfold Idle
    decide +kernel
  · unfold OneEach
    decide +kernel

end Historian.Group
