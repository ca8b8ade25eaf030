import Historian.Proofs.Service.Endings
import Mathlib.Data.List.TakeWhile
import Mathlib.Order.Bounds.Basic

/-!
# Waiting in turn

A stop waits for one task after the other, all of them against one deadline.  Whichever of them holds
it up, it looks at the others when their turn comes, and answers as if it had watched all at once.

* `Group.awaitInTurn_early`, `Group.awaitInTurn_due` — what waiting in turn comes to.
* `Group.verdict`, `Group.returnsAt` — the answer to a stop and its time, from the ends of the tasks.
* `Group.Moving.settle_waiting` — a stop goes on waiting until its time has come, and then answers.
-/

set_option autoImplicit false

namespace Historian.Group

/-! ## Waiting in turn -/

section

variable {g : Group} {deadline : Nat}

/-- Before the deadline, those that have ended are passed over. -/
theorem awaitInTurn_early (h : g.now < deadline) (awaited : List (String × Nat))
    (late : List String) :
    g.awaitInTurn deadline awaited late = (awaited.dropWhile fun e => g.hasEnded e.2, late) := by
  induction awaited with
  | nil => rfl
  | cons e rest ih =>
    unfold awaitInTurn
    cases hended : g.hasEnded e.2 with
    | true => rw [if_pos rfl, ih, List.dropWhile_cons_of_pos (by exact hended)]
    | false =>
      rw [if_neg Bool.false_ne_true, if_neg (Nat.not_le_of_lt h),
        List.dropWhile_cons_of_neg (by simp [hended])]

/-- From the deadline on, whatever has not ended is late. -/
theorem awaitInTurn_due (h : deadline ≤ g.now) (awaited : List (String × Nat)) :
    ∀ late : List String, g.awaitInTurn deadline awaited late =
      ([], late ++ (awaited.filter fun e => !g.hasEnded e.2).map (·.1)) := by
  induction awaited with
  | nil =>
    intro late
    rw [List.filter_nil, List.map_nil, List.append_nil]
    rfl
  | cons e rest ih =>
    intro late
    unfold awaitInTurn
    cases hended : g.hasEnded e.2 with
    | true => rw [if_pos rfl, ih, List.filter_cons_of_neg (by simp [hended])]
    | false =>
      rw [if_neg Bool.false_ne_true, if_pos h, ih, List.filter_cons_of_pos (by simp [hended]),
        List.map_cons, List.append_assoc, List.singleton_append]

end

/-- The tasks taken over that have not ended by `time`. -/
def unfinished (g : Group) (time : Nat) : List (String × Nat) :=
  g.taken.filter fun e => !(g.endingOf e.1).endedBy time

/-- The services that are late for a stop requested now. -/
def lateNames (g : Group) : List String := (g.unfinished (g.now + g.stopLimit)).map (·.1)

/-- The answer to a stop requested now. -/
def verdict (g : Group) : Except ServiceFailure Unit :=
  if g.lateNames = [] then .ok () else .error (.late g.lateNames)

/-- When the last of the tasks taken over ends. -/
def lastEnd (g : Group) : Nat :=
  (g.taken.filterMap fun e =>
    match g.endingOf e.1 with
    | .planned time => some time
    | _ => none).foldr max g.now

/-- When a stop requested now is answered. -/
def returnsAt (g : Group) : Nat := if g.lateNames = [] then g.lastEnd else g.now + g.stopLimit

theorem isGreatest_foldr_max (xs : List Nat) (x : Nat) :
    IsGreatest {y | y = x ∨ y ∈ xs} (xs.foldr max x) := by
  induction xs with
  | nil => exact ⟨.inl rfl, fun y hy => hy.elim Nat.le_of_eq fun hmem => nomatch hmem⟩
  | cons z rest ih =>
    obtain ⟨hmem, hall⟩ := ih
    rw [List.foldr_cons]
    constructor
    · rcases Nat.le_total z (rest.foldr max x) with hle | hle
      · rw [Nat.max_eq_right hle]
        exact hmem.imp_right (List.mem_cons_of_mem _)
      · rw [Nat.max_eq_left hle]
        exact .inr List.mem_cons_self
    · rintro y (rfl | hy)
      · exact Nat.le_trans (hall (.inl rfl)) (Nat.le_max_right ..)
      · rcases List.mem_cons.1 hy with rfl | hy
        · exact Nat.le_max_left ..
        · exact Nat.le_trans (hall (.inr hy)) (Nat.le_max_right ..)

section

variable {g : Group} {t : Nat}

theorem lastEnd_isGreatest (g : Group) :
    IsGreatest {t | t = g.now ∨ ∃ e ∈ g.taken, g.endingOf e.1 = .planned t} g.lastEnd := by
  have hmem : ∀ t, t ∈ (g.taken.filterMap fun e =>
      match g.endingOf e.1 with
      | .planned time => some time
      | _ => none) ↔ ∃ e ∈ g.taken, g.endingOf e.1 = .planned t := by
    intro t
    rw [List.mem_filterMap]
    refine exists_congr fun e => and_congr_right fun _ => ?_
    cases g.endingOf e.1 <;> simp
  have hgreatest := isGreatest_foldr_max (g.taken.filterMap fun e =>
    match g.endingOf e.1 with
    | .planned time => some time
    | _ => none) g.now
  simp only [hmem] at hgreatest
  exact hgreatest

theorem unfinished_eq_nil_iff :
    g.unfinished t = [] ↔ ∀ e ∈ g.taken, (g.endingOf e.1).endedBy t = true := by
  unfold unfinished
  rw [List.filter_eq_nil_iff]
  simp

/-- As long as a stop waits, there is something to wait for, and time left. -/
theorem unfinished_of_lt_returnsAt (hnow : g.now ≤ t) (h : t < g.returnsAt) :
    g.unfinished t ≠ [] ∧ t < g.now + g.stopLimit := by
  unfold returnsAt at h
  split at h
  · next hnone =>
    have hall := unfinished_eq_nil_iff.1 (List.map_eq_nil_iff.1 hnone)
    obtain ⟨hlast | ⟨e, he, hlast⟩, -⟩ := g.lastEnd_isGreatest
    · omega
    · have hlimit := hall e he
      rw [hlast] at hlimit
      have hle : g.lastEnd ≤ g.now + g.stopLimit := by simpa [Ending.endedBy] using hlimit
      refine ⟨fun hnil => ?_, by omega⟩
      have hended := unfinished_eq_nil_iff.1 hnil e he
      rw [hlast] at hended
      have : g.lastEnd ≤ t := by simpa [Ending.endedBy] using hended
      omega
  · next hsome =>
    refine ⟨fun hnil => hsome ?_, h⟩
    refine List.map_eq_nil_iff.2 (unfinished_eq_nil_iff.2 fun e he => ?_)
    exact Ending.endedBy_mono (unfinished_eq_nil_iff.1 hnil e he) (Nat.le_of_lt h)

/-- It does not wait beyond its deadline. -/
theorem returnsAt_le (g : Group) : g.returnsAt ≤ g.now + g.stopLimit :=
  Nat.le_of_not_lt fun hlate =>
    Nat.lt_irrefl _ (unfinished_of_lt_returnsAt (Nat.le_add_right _ _) hlate).2

/-- When it is answered, all have ended or it is out of time. -/
theorem verdict_at_returnsAt :
    (g.unfinished g.returnsAt = [] ∧ g.verdict = .ok ()) ∨
      (g.unfinished g.returnsAt ≠ [] ∧ g.returnsAt = g.now + g.stopLimit ∧
        g.verdict = .error (.late ((g.unfinished g.returnsAt).map (·.1)))) := by
  by_cases hnone : g.lateNames = []
  · have hall := unfinished_eq_nil_iff.1 (List.map_eq_nil_iff.1 hnone)
    refine .inl ⟨unfinished_eq_nil_iff.2 fun e he => ?_, if_pos hnone⟩
    have htime : g.returnsAt = g.lastEnd := if_pos hnone
    rw [htime]
    cases hending : g.endingOf e.1 with
    | already => rfl
    | never =>
      have hended := hall e he
      rw [hending] at hended
      cases hended
    | planned time =>
      have hle : time ≤ g.lastEnd := g.lastEnd_isGreatest.2 (.inr ⟨e, he, hending⟩)
      simpa [Ending.endedBy] using hle
  · have htime : g.returnsAt = g.now + g.stopLimit := if_neg hnone
    refine .inr ⟨fun hnil => hnone ?_, htime, ?_⟩
    · rw [htime] at hnil
      unfold lateNames
      rw [hnil]
      rfl
    · rw [htime]
      exact if_neg hnone

end

/-! ## The stop among the others -/

/-- The stop of `g` goes on waiting in `m`: what it has passed over has ended. -/
def Waiting (g m : Group) : Prop :=
  ∃ passed awaited, g.taken = passed ++ awaited ∧
    (∀ e ∈ passed, (g.endingOf e.1).endedBy m.now = true) ∧
    (m.stops.filter fun s => s.call = g.calls) = [⟨g.calls, awaited, [], g.now + g.stopLimit⟩]

/-- The stop of `g` does not wait any more in `m`. -/
def Answered (g m : Group) : Prop := (m.stops.filter fun s => s.call = g.calls) = []

/-- The answers to the stop of `g` among others. -/
def answersTo (g : Group) (answers : List Answer) : List Answer :=
  answers.filter fun a => a.1 = g.calls

/-- Every stop looks for itself whether it can return. -/
theorem filter_settle (m : Group) (call : Nat) :
    (m.settle.1.stops.filter fun s => s.call = call) =
        ((m.stops.filter fun s => s.call = call).map m.runTasks.pollStop).filterMap Sum.getLeft? ∧
      (m.settle.2.filter fun a => a.1 = call) =
        ((m.stops.filter fun s => s.call = call).map m.runTasks.pollStop).filterMap
          Sum.getRight? := by
  unfold settle
  simp only [runTasks_stops, List.filterMap_map, List.filter_filterMap, List.filterMap_filter]
  constructor
  · refine congrArg (List.filterMap · m.stops) (funext fun s => ?_)
    cases hpoll : m.runTasks.pollStop s with
    | inl s' => simp [hpoll, Option.filter, (pollStop_call m.runTasks s).1 s' hpoll]
    | inr a => simp [hpoll]
  · refine congrArg (List.filterMap · m.stops) (funext fun s => ?_)
    cases hpoll : m.runTasks.pollStop s with
    | inl s' => simp [hpoll]
    | inr a => simp [hpoll, Option.filter, (pollStop_call m.runTasks s).2 a hpoll]

namespace Moving

variable {g m : Group} {passed awaited : List (String × Nat)}

/-- What a stop has still to look at and has not ended is all that has not ended. -/
theorem filter_awaited (h : Moving g m) (hsplit : g.taken = passed ++ awaited)
    (hpassed : ∀ e ∈ passed, (g.endingOf e.1).endedBy m.now = true) :
    (awaited.filter fun e => !m.runTasks.hasEnded e.2) = g.unfinished m.now := by
  have hnone : (passed.filter fun e => !(g.endingOf e.1).endedBy m.now) = [] :=
    List.filter_eq_nil_iff.2 fun e he => by simp [hpassed e he]
  unfold unfinished
  rw [hsplit, List.filter_append, hnone, List.nil_append]
  refine List.filter_congr fun e he => ?_
  have hheld : g.held e.1 = some e.2 := mem_taken.1 (hsplit ▸ List.mem_append_right _ he)
  rw [h.hasEnded_eq hheld]

/-- Until its time has come, a stop goes on waiting. -/
theorem poll_early (h : Moving g m) (hsplit : g.taken = passed ++ awaited)
    (hpassed : ∀ e ∈ passed, (g.endingOf e.1).endedBy m.now = true) (hlt : m.now < g.returnsAt) :
    m.runTasks.pollStop ⟨g.calls, awaited, [], g.now + g.stopLimit⟩ =
      .inl ⟨g.calls, awaited.dropWhile fun e => m.runTasks.hasEnded e.2, [],
        g.now + g.stopLimit⟩ := by
  obtain ⟨hsome, hlimit⟩ := unfinished_of_lt_returnsAt h.now_le hlt
  rw [← (runTasks_frame m).2] at hlimit
  rw [← h.filter_awaited hsplit hpassed] at hsome
  unfold pollStop
  rw [awaitInTurn_early hlimit]
  cases hdrop : awaited.dropWhile fun e => m.runTasks.hasEnded e.2 with
  | cons e rest => rfl
  | nil =>
    refine absurd (List.filter_eq_nil_iff.2 fun e he => ?_) hsome
    simp [List.dropWhile_eq_nil_iff.1 hdrop e he]

/-- Then it answers. -/
theorem poll_due (h : Moving g m) (hsplit : g.taken = passed ++ awaited)
    (hpassed : ∀ e ∈ passed, (g.endingOf e.1).endedBy m.now = true) (hnow : m.now = g.returnsAt) :
    m.runTasks.pollStop ⟨g.calls, awaited, [], g.now + g.stopLimit⟩ =
      .inr (g.calls, g.verdict) := by
  have hleft := h.filter_awaited hsplit hpassed
  unfold pollStop
  rcases verdict_at_returnsAt (g := g) with ⟨hnone, hverdict⟩ | ⟨hsome, hlimit, hverdict⟩
  · rw [hnow, hnone] at hleft
    have hall : ∀ e ∈ awaited, m.runTasks.hasEnded e.2 = true := by
      simpa [List.filter_eq_nil_iff] using hleft
    rw [hverdict]
    by_cases hearly : m.runTasks.now < g.now + g.stopLimit
    · rw [awaitInTurn_early hearly, List.dropWhile_eq_nil_iff.2 hall]
    · rw [awaitInTurn_due (Nat.le_of_not_lt hearly), hleft]
      rfl
  · have hdue : g.now + g.stopLimit ≤ m.runTasks.now := by
      rw [(runTasks_frame m).2, hnow, hlimit]
    rw [awaitInTurn_due hdue, hleft, hnow, hverdict]
    cases hnames : g.unfinished g.returnsAt with
    | nil => exact absurd hnames hsome
    | cons e rest => rfl

theorem settle_waiting (h : Moving g m) (hwaiting : Waiting g m) :
    (m.now < g.returnsAt → Waiting g m.settle.1 ∧ g.answersTo m.settle.2 = []) ∧
      (m.now = g.returnsAt →
        Answered g m.settle.1 ∧ g.answersTo m.settle.2 = [(g.calls, g.verdict)]) := by
  obtain ⟨passed, awaited, hsplit, hpassed, hstops⟩ := hwaiting
  obtain ⟨hstops', hanswers⟩ := filter_settle m g.calls
  rw [hstops, List.map_singleton] at hstops' hanswers
  constructor
  · intro hlt
    rw [h.poll_early hsplit hpassed hlt] at hstops' hanswers
    refine ⟨⟨passed ++ awaited.takeWhile fun e => m.runTasks.hasEnded e.2,
      awaited.dropWhile fun e => m.runTasks.hasEnded e.2, ?_, fun e he => ?_, hstops'⟩, hanswers⟩
    · rw [hsplit, List.append_assoc, List.takeWhile_append_dropWhile]
    · show (g.endingOf e.1).endedBy m.runTasks.now = true
      rw [(runTasks_frame m).2]
      rcases List.mem_append.1 he with he | he
      · exact hpassed e he
      · have hmem : e ∈ g.taken :=
          hsplit ▸ List.mem_append_right _ ((List.takeWhile_sublist _).subset he)
        rw [← h.hasEnded_eq (mem_taken.1 hmem)]
        exact List.mem_takeWhile_imp (p := fun e : String × Nat => m.runTasks.hasEnded e.2) he
  · intro hnow
    rw [h.poll_due hsplit hpassed hnow] at hstops' hanswers
    exact ⟨hstops', hanswers⟩

theorem settle_answered (hdone : Answered g m) :
    Answered g m.settle.1 ∧ g.answersTo m.settle.2 = [] := by
  obtain ⟨hstops', hanswers⟩ := filter_settle m g.calls
  rw [show (m.stops.filter fun s => s.call = g.calls) = [] from hdone] at hstops' hanswers
  exact ⟨hstops', hanswers⟩

end Moving

end Historian.Group
