import Historian.Proofs.Purge.FailedRuns
import Historian.Purge.Overlap
import Mathlib.Data.List.Induction

/-!
# One purge run at a time

However calls for a run overlap, and wherever the backend fails, one run is under way at most, and it
does what it would do alone.

* `PurgeRuns.Run.outcome`, `PurgeRuns.next_keeps` — what a run comes to if it goes on alone, which no
  step of it changes.
* `PurgeRuns.Single`, `PurgeRuns.Single.moves` — at most one run is under way, and what an event may
  do then.
* `PurgeRuns.Single.alone`, `PurgeRuns.Single.runs` — what a history has made of the run under way,
  and how many runs it has counted, by induction on its events.
* `PurgeRuns.Single.leaves` — a run is answered once it has taken enough steps.
* `PurgeRuns.run_nesting` — a run that a catalog asks for.
* `PurgeRuns.run_singleFlight` — all of it, after any history.
-/

set_option autoImplicit false

namespace Historian

namespace PurgeRuns

open PurgeManager (letExpire goOn conclude lowered)

variable {σ : Type} {b : Backend σ} {d : Directory}

/-! ## What a run comes to -/

/-- Removes orphans, given the series that are live. -/
def clean (b : Backend σ) (live : List SeriesId) (report : PurgeReport) :
    Action (PurgeState σ Unit) PurgeReport := fun st =>
  match b.deleteOrphaned live st.store with
  | (.error e, store) => (.error e, { st with store })
  | (.ok orphansDeleted, store) => (.ok { report with orphansDeleted }, { st with store })

/-- Purges these targets. -/
def points (b : Backend σ) (default : Option Period) (now : Timestamp) (targets : List PurgeTarget)
    (report : PurgeReport) : Action (PurgeState σ Unit) PurgeReport := fun st =>
  let (result, store) :=
    PurgeManager.purgePoints b st.manager.capabilities default now targets report st.store
  (result, { st with store })

/-- What a run comes to if it goes on alone: its answer, and what it leaves. -/
def Run.outcome (b : Backend σ) (d : Directory) (r : Run) (st : PurgeState σ Unit) :
    Except Failure (Option PurgeReport) × PurgeState σ Unit :=
  let catalog := d.catalog r.number
  match r.stage with
  | .opened => conclude (goOn b catalog (PurgeManager.expire b catalog r.now st))
  | .listing default =>
    conclude (goOn b catalog (points b default r.now (d.targets r.number) .blank st))
  | .purging default rest report =>
    conclude (goOn b catalog (points b default r.now rest report st))
  | .handing period report =>
    conclude (goOn b catalog (PurgeManager.applyRetention b period r.now report st))
  | .enforcing report => conclude (goOn b catalog (letExpire b r.now report st))
  | .expired report => conclude (PurgeManager.removeOrphans b catalog report st)
  | .naming report => conclude (clean b (d.live r.number) report st)
  | .cleaning live report => conclude (clean b live report st)
  | .finishing report => conclude (.ok report, st)
  | .leaving result => (answerTo result, PurgeManager.change lowered st)

/-- Steps before the last, at most. -/
def Stage.remaining (d : Directory) (n : Nat) : Stage → Nat
  | .opened => (d.targets n).length + 8
  | .listing _ => (d.targets n).length + 7
  | .purging _ rest _ => rest.length + 6
  | .handing .. => 6
  | .enforcing _ => 5
  | .expired _ => 4
  | .naming _ => 3
  | .cleaning .. => 2
  | .finishing _ => 1
  | .leaving _ => 0

/-- The run has been counted, and has not lowered the flag yet. -/
def Stage.isCounted : Stage → Bool
  | .leaving (.ok _) => true
  | _ => false

/-- What a step of a run does to the run and to the manager. -/
structure Keeps (b : Backend σ) (d : Directory) (n : Nat) (now : Timestamp) (m : PurgeManager)
    (s : σ) (stage : Stage) (p : Progress σ) : Prop where
  /-- The run comes to the same. -/
  outcome : Run.outcome b d ⟨n, now, p.stage⟩ ⟨p.manager, p.store, ()⟩ =
    Run.outcome b d ⟨n, now, stage⟩ ⟨m, s, ()⟩
  flag : p.manager.isRunning = m.isRunning
  runs : p.manager.runs + stage.isCounted.toNat = m.runs + p.stage.isCounted.toNat
  nearer : 0 < stage.remaining d n → p.stage.remaining d n < stage.remaining d n

section

variable (b : Backend σ) (d : Directory) (n : Nat) (now : Timestamp) (m : PurgeManager) (s : σ)

/-- What a run comes to after its step. -/
def nextOutcome (stage : Stage) : Except Failure (Option PurgeReport) × PurgeState σ Unit :=
  let p := Stage.next b d ⟨n, now, stage⟩ m s
  Run.outcome b d ⟨n, now, p.stage⟩ ⟨p.manager, p.store, ()⟩

theorem outcome_opened :
    nextOutcome b d n now m s .opened = conclude (goOn b (d.catalog n)
      (PurgeManager.expire b (d.catalog n) now ⟨m, s, ()⟩)) := by
  simp only [nextOutcome, Stage.next]
  split
  · next h =>
    rw [PurgeManager.expire, if_pos h]
    rfl
  · next h =>
    split
    · next p hdefault =>
      split
      · next hdeclared =>
        simp only [PurgeManager.expire, h, hdefault, hdeclared, if_true]
        rfl
      · next hdeclared =>
        simp only [PurgeManager.expire, h, hdefault, hdeclared]
        rfl
    · next hdefault =>
      simp only [PurgeManager.expire, h, hdefault]
      rfl

theorem outcome_purging (default : Option Period) (rest : List PurgeTarget) (report : PurgeReport) :
    nextOutcome b d n now m s (.purging default rest report) =
      conclude (goOn b (d.catalog n) (points b default now rest report ⟨m, s, ()⟩)) := by
  cases rest with
  | nil => rfl
  | cons t rest =>
    simp only [nextOutcome, Stage.next]
    split
    · next hcutoff =>
      simp only [points, PurgeManager.purgePoints, hcutoff]
      rfl
    · next cutoff hcutoff =>
      split
      · next e hrequire =>
        simp only [points, PurgeManager.purgePoints, hcutoff, hrequire]
        rfl
      · next hrequire =>
        split
        · next e s' hdelete =>
          simp only [points, PurgeManager.purgePoints, hcutoff, hrequire, hdelete]
          rfl
        · next count s' hdelete =>
          simp only [points, PurgeManager.purgePoints, hcutoff, hrequire, hdelete]
          rfl

theorem outcome_handing (p : Period) (report : PurgeReport) :
    nextOutcome b d n now m s (.handing p report) =
      conclude (goOn b (d.catalog n) (PurgeManager.applyRetention b p now report ⟨m, s, ()⟩)) := by
  simp only [nextOutcome, Stage.next]
  split
  · next happlied =>
    rw [PurgeManager.applyRetention_of_applied ⟨m, s, ()⟩ happlied]
    rfl
  · next hnew =>
    split
    · next e s' hset =>
      rw [PurgeManager.applyRetention_of_error ⟨m, s, ()⟩ hnew hset]
      rfl
    · next s' hset =>
      rw [PurgeManager.applyRetention_of_ok ⟨m, s, ()⟩ hnew hset]
      rfl

theorem outcome_enforcing (report : PurgeReport) :
    nextOutcome b d n now m s (.enforcing report) =
      conclude (goOn b (d.catalog n) (letExpire b now report ⟨m, s, ()⟩)) := by
  simp only [nextOutcome, Stage.next]
  split
  · next e s' h =>
    simp only [letExpire, h]
    rfl
  · next count s' h =>
    simp only [letExpire, h]
    rfl

theorem outcome_expired (report : PurgeReport) :
    nextOutcome b d n now m s (.expired report) =
      conclude (PurgeManager.removeOrphans b (d.catalog n) report ⟨m, s, ()⟩) := by
  simp only [nextOutcome, Stage.next]
  split
  · next h =>
    rw [PurgeManager.removeOrphans, if_pos h]
    rfl
  · next h =>
    rw [PurgeManager.removeOrphans, if_neg h]
    rfl

theorem outcome_cleaning (live : List SeriesId) (report : PurgeReport) :
    nextOutcome b d n now m s (.cleaning live report) =
      conclude (clean b live report ⟨m, s, ()⟩) := by
  simp only [nextOutcome, Stage.next]
  split
  · next e s' h =>
    simp only [clean, h]
    rfl
  · next count s' h =>
    simp only [clean, h]
    rfl

theorem nextOutcome_eq (stage : Stage) :
    nextOutcome b d n now m s stage = Run.outcome b d ⟨n, now, stage⟩ ⟨m, s, ()⟩ := by
  cases stage with
  | opened => exact outcome_opened b d n now m s
  | purging default rest report => exact outcome_purging b d n now m s default rest report
  | handing p report => exact outcome_handing b d n now m s p report
  | enforcing report => exact outcome_enforcing b d n now m s report
  | expired report => exact outcome_expired b d n now m s report
  | cleaning live report => exact outcome_cleaning b d n now m s live report
  | listing default => rfl
  | naming report => rfl
  | finishing report => rfl
  | leaving result => rfl

/-- No step touches the flag, and only the last but one counts the run. -/
theorem next_manager (stage : Stage) :
    (Stage.next b d ⟨n, now, stage⟩ m s).manager.isRunning = m.isRunning ∧
      (Stage.next b d ⟨n, now, stage⟩ m s).manager.runs + stage.isCounted.toNat =
        m.runs + (Stage.next b d ⟨n, now, stage⟩ m s).stage.isCounted.toNat := by
  unfold Stage.next
  cases stage with
  | purging default rest report =>
    cases rest with
    | nil => exact ⟨rfl, rfl⟩
    | cons t rest =>
      dsimp only
      repeat' split
      all_goals exact ⟨rfl, rfl⟩
  | _ =>
    dsimp only
    repeat' split
    all_goals exact ⟨rfl, rfl⟩

theorem next_nearer {stage : Stage} (h : 0 < stage.remaining d n) :
    (Stage.next b d ⟨n, now, stage⟩ m s).stage.remaining d n < stage.remaining d n := by
  unfold Stage.next
  cases stage with
  | leaving result => exact absurd h (Nat.lt_irrefl 0)
  | purging default rest report =>
    cases rest with
    | nil => simp [Stage.remaining]
    | cons t rest =>
      dsimp only
      repeat' split
      all_goals simp [Stage.remaining]
  | _ =>
    dsimp only
    repeat' split
    all_goals simp [Stage.remaining]

theorem next_keeps (stage : Stage) :
    Keeps b d n now m s stage (Stage.next b d ⟨n, now, stage⟩ m s) where
  outcome := nextOutcome_eq b d n now m s stage
  flag := (next_manager b d n now m s stage).1
  runs := (next_manager b d n now m s stage).2
  nearer := next_nearer b d n now m s

end

/-! ## Events -/

theorem exists_leaving {n : Nat} {stage : Stage} (h : stage.remaining d n = 0) :
    ∃ result, stage = .leaving result := by
  cases stage with
  | leaving result => exact ⟨result, rfl⟩
  | _ => simp [Stage.remaining] at h

/-- At most one run is under way, and the flag is up exactly then. -/
inductive Single (s : PurgeRuns σ) : Prop
  | idle (hnone : s.underWay = []) (hflag : s.manager.isRunning = false)
  | busy (r : Run) (hone : s.underWay = [r]) (hflag : s.manager.isRunning = true)

theorem Single.length_le {s : PurgeRuns σ} (h : s.Single) : s.underWay.length ≤ 1 := by
  cases h with
  | idle hnone hflag => simp [hnone]
  | busy r hone hflag => simp [hone]

theorem Single.flag_iff {s : PurgeRuns σ} (h : s.Single) :
    s.manager.isRunning = true ↔ s.underWay ≠ [] := by
  cases h with
  | idle hnone hflag => simp [hnone, hflag]
  | busy r hone hflag => simp [hone, hflag]

/-- What an event may do. -/
inductive Moves (b : Backend σ) (d : Directory) (s : PurgeRuns σ) :
    Event → PurgeRuns σ × List Effect → Prop
  /-- A run begins. -/
  | begins (now : Timestamp) (hnone : s.underWay = []) (hflag : s.manager.isRunning = false) :
      Moves b d s (.call now)
        ({ s with
            manager := s.manager.begun
            calls := s.calls + 1
            underWay := [⟨s.calls, now, .opened⟩] }, [])
  /-- A call finds a run under way. -/
  | turnedAway (now : Timestamp) (hflag : s.manager.isRunning = true) :
      Moves b d s (.call now)
        ({ s with calls := s.calls + 1 }, [.answered s.calls (.ok none)])
  /-- There is no run of the number. -/
  | nobody {n : Nat} (h : ∀ r ∈ s.underWay, r.number ≠ n) : Moves b d s (.go n) (s, [])
  | goesOn {n : Nat} {now : Timestamp} {stage : Stage} {p : Progress σ}
      (hone : s.underWay = [⟨n, now, stage⟩]) (hpos : 0 < stage.remaining d n)
      (hp : p = Stage.next b d ⟨n, now, stage⟩ s.manager s.store) :
      Moves b d s (.go n)
        ({ s with manager := p.manager, store := p.store, underWay := [⟨n, now, p.stage⟩] },
          (p.called.map fun c => .called n c.1 c.2).toList)
  | leaves {n : Nat} {now : Timestamp} {result : Except BackendFailure PurgeReport}
      (hone : s.underWay = [⟨n, now, .leaving result⟩]) :
      Moves b d s (.go n)
        ({ s with manager := lowered s.manager, underWay := [] }, [.answered n (answerTo result)])

theorem call_of_idle {s : PurgeRuns σ} (hnone : s.underWay = [])
    (hflag : s.manager.isRunning = false) (now : Timestamp) :
    s.call now = ({ s with
      manager := s.manager.begun
      calls := s.calls + 1
      underWay := [⟨s.calls, now, .opened⟩] }, []) := by
  simp [call, hnone, hflag, PurgeManager.begun]

theorem call_of_running {s : PurgeRuns σ} (hflag : s.manager.isRunning = true) (now : Timestamp) :
    s.call now = ({ s with calls := s.calls + 1 }, [.answered s.calls (.ok none)]) := by
  rw [call, if_pos hflag]

theorem moves_call {s : PurgeRuns σ} (h : s.Single) (now : Timestamp) :
    Moves b d s (.call now) (s.call now) := by
  cases h with
  | idle hnone hflag =>
    rw [call_of_idle hnone hflag]
    exact .begins now hnone hflag
  | busy r hone hflag =>
    rw [call_of_running hflag]
    exact .turnedAway now hflag

theorem moves_go {s : PurgeRuns σ} (h : s.Single) (n : Nat) :
    Moves b d s (.go n) (s.go b d n) := by
  have habsent : (∀ r ∈ s.underWay, r.number ≠ n) → Moves b d s (.go n) (s.go b d n) := by
    intro habsent
    have hnone : s.underWay.find? (fun r => r.number == n) = none := by simpa using habsent
    simp only [go, hnone]
    exact .nobody habsent
  cases h with
  | idle hnone hflag => exact habsent (by simp [hnone])
  | busy r hone hflag =>
    obtain ⟨k, now, stage⟩ := r
    by_cases hk : k = n
    · subst hk
      rcases Nat.eq_zero_or_pos (stage.remaining d k) with hlast | hpos
      · obtain ⟨result, rfl⟩ := exists_leaving hlast
        have hgo : s.go b d k =
            ({ s with manager := lowered s.manager, underWay := [] },
              [.answered k (answerTo result)]) := by
          simp [go, hone, lowered]
        rw [hgo]
        exact .leaves hone
      · have hgo : s.go b d k =
            let p := Stage.next b d ⟨k, now, stage⟩ s.manager s.store
            ({ s with manager := p.manager, store := p.store, underWay := [⟨k, now, p.stage⟩] },
              (p.called.map fun c => .called k c.1 c.2).toList) := by
          cases stage with
          | leaving result => exact absurd hpos (by simp [Stage.remaining])
          | _ => simp [go, hone]
        rw [hgo]
        exact .goesOn hone hpos rfl
    · exact habsent (by simpa [hone] using hk)

/-- The steps that there are while at most one run is under way. -/
theorem Single.moves {s : PurgeRuns σ} (h : s.Single) (b : Backend σ) (d : Directory) (e : Event) :
    Moves b d s e (s.step b d e) := by
  cases e with
  | call now => exact moves_call h now
  | go n => exact moves_go h n

theorem Single.step {s : PurgeRuns σ} (h : s.Single) (b : Backend σ) (d : Directory) (e : Event) :
    (s.step b d e).1.Single := by
  generalize hr : s.step b d e = r
  cases hr ▸ h.moves b d e with
  | begins now hnone hflag => exact .busy _ rfl rfl
  | turnedAway now hflag =>
    cases h with
    | idle hnone hidle => exact .idle hnone hidle
    | busy r hone hbusy => exact .busy r hone hbusy
  | nobody habsent => exact h
  | @goesOn n now stage p hone hpos hp =>
    subst hp
    have hflag := h.flag_iff.2 (by simp [hone])
    exact .busy _ rfl ((next_keeps b d n now _ _ stage).flag.trans hflag)
  | leaves hone => exact .idle rfl rfl

/-! ## Histories -/

/-- What a history leaves. -/
def after (b : Backend σ) (d : Directory) (s : PurgeRuns σ) (events : List Event) : PurgeRuns σ :=
  (s.run b d events).1

/-- The effects of a history. -/
def effects (b : Backend σ) (d : Directory) (s : PurgeRuns σ) (events : List Event) :
    List Effect :=
  (s.run b d events).2

section

variable {s s₀ : PurgeRuns σ} {events : List Event}

theorem effects_cons (s : PurgeRuns σ) (e : Event) (rest : List Event) :
    s.effects b d (e :: rest) = (s.step b d e).2 ++ (s.step b d e).1.effects b d rest := rfl

theorem after_concat (s : PurgeRuns σ) (events : List Event) (e : Event) :
    s.after b d (events ++ [e]) = ((s.after b d events).step b d e).1 := by
  induction events generalizing s with
  | nil => rfl
  | cons first rest ih => exact ih _

theorem effects_concat (s : PurgeRuns σ) (events : List Event) (e : Event) :
    s.effects b d (events ++ [e]) =
      s.effects b d events ++ ((s.after b d events).step b d e).2 := by
  induction events generalizing s with
  | nil => simp [effects, after, run]
  | cons first rest ih =>
    rw [List.cons_append, effects_cons, ih, effects_cons, List.append_assoc]
    rfl

theorem Single.after (h : s₀.Single) (b : Backend σ) (d : Directory) (events : List Event) :
    (s₀.after b d events).Single := by
  induction events using List.reverseRecOn with
  | nil => exact h
  | append_singleton events e ih =>
    rw [after_concat]
    exact ih.step b d e

/-- A run of this number was called when none was under way, and alone it would come to this. -/
def Alone (b : Backend σ) (d : Directory) (s₀ : PurgeRuns σ) (events : List Event) (n : Nat)
    (outcome : Except Failure (Option PurgeReport) × PurgeState σ Unit) : Prop :=
  ∃ before now middle, events = before ++ .call now :: middle ∧
    (s₀.after b d before).underWay = [] ∧ (s₀.after b d before).calls = n ∧
    PurgeManager.run b (d.catalog n) now
      ⟨(s₀.after b d before).manager, (s₀.after b d before).store, ()⟩ = outcome

theorem Alone.later {n : Nat} {outcome : Except Failure (Option PurgeReport) × PurgeState σ Unit}
    (h : Alone b d s₀ events n outcome) (e : Event) : Alone b d s₀ (events ++ [e]) n outcome := by
  obtain ⟨before, now, middle, rfl, h⟩ := h
  exact ⟨before, now, middle ++ [e], by simp, h⟩

/-- Whatever happens meanwhile, a run that is under way will come to what it would come to alone. -/
theorem Single.alone (h : s₀.Single) (hnone : s₀.underWay = []) (events : List Event) :
    ∀ r ∈ (s₀.after b d events).underWay, Alone b d s₀ events r.number
      (r.outcome b d ⟨(s₀.after b d events).manager, (s₀.after b d events).store, ()⟩) := by
  -- from the last event, since what a run comes to is fixed by what came before its call
  induction events using List.reverseRecOn with
  | nil => simp [PurgeRuns.after, run, hnone]
  | append_singleton events e ih =>
    have hmoves := (h.after b d events).moves b d e
    rw [after_concat]
    generalize hs : s₀.after b d events = s at hmoves ih
    generalize s.step b d e = r at hmoves
    cases hmoves with
    | begins now hnone hflag =>
      intro r hr
      obtain rfl := List.mem_singleton.1 hr
      refine ⟨events, now, [], rfl, ?_⟩
      rw [hs]
      exact ⟨hnone, rfl, PurgeManager.run_of_idle hflag⟩
    | turnedAway now hflag => exact fun r hr => (ih r hr).later _
    | nobody habsent => exact fun r hr => (ih r hr).later _
    | @goesOn n now stage p hone hpos hp =>
      intro r hr
      obtain rfl := List.mem_singleton.1 hr
      subst hp
      have hkeeps := next_keeps b d n now s.manager s.store stage
      show Alone b d s₀ (events ++ [_]) n (Run.outcome b d ⟨n, now, _⟩ _)
      rw [hkeeps.outcome]
      exact (ih _ (by rw [hone]; exact List.mem_singleton_self _)).later _
    | leaves hone => exact fun r hr => absurd hr List.not_mem_nil

/-- The answer is a report. -/
def Effect.isReport : Effect → Bool
  | .answered _ (.ok (some _)) => true
  | _ => false

/-- Runs that have been counted and are not answered yet. -/
def counted (s : PurgeRuns σ) : Nat := s.underWay.countP fun r => r.stage.isCounted

theorem counted_of_one {n : Nat} {now : Timestamp} {stage : Stage}
    (hone : s.underWay = [⟨n, now, stage⟩]) : s.counted = stage.isCounted.toNat := by
  rw [counted, hone, List.countP_singleton]
  cases stage.isCounted <;> rfl

/-- What is counted are the answers with a report, and the run that is about to give one. -/
theorem Single.runs (h : s₀.Single) (hnone : s₀.underWay = []) (events : List Event) :
    (s₀.after b d events).manager.runs =
      s₀.manager.runs + (s₀.effects b d events).countP Effect.isReport +
        (s₀.after b d events).counted := by
  induction events using List.reverseRecOn with
  | nil => simp [PurgeRuns.after, effects, run, counted, hnone]
  | append_singleton events e ih =>
    have hmoves := (h.after b d events).moves b d e
    rw [after_concat, effects_concat, List.countP_append]
    generalize s₀.after b d events = s at hmoves ih
    generalize s.step b d e = r at hmoves
    cases hmoves with
    | begins now hidle hflag => simpa [counted, hidle, PurgeManager.begun, Stage.isCounted] using ih
    | turnedAway now hflag =>
      simpa [counted, Effect.isReport] using ih
    | nobody habsent => simpa using ih
    | @goesOn n now stage p hone hpos hp =>
      have hkeeps := (next_keeps b d n now s.manager s.store stage).runs
      have hquiet : ((p.called.map fun c => Effect.called n c.1 c.2).toList).countP
          Effect.isReport = 0 := by
        cases p.called <;> rfl
      subst hp
      rw [counted_of_one hone] at ih
      rw [counted_of_one rfl, hquiet]
      dsimp only
      omega
    | @leaves n now result hone =>
      rw [counted_of_one hone] at ih
      cases result with
      | error e => simpa [counted, lowered, Stage.isCounted, answerTo, Effect.isReport] using ih
      | ok report =>
        simpa [counted, lowered, Stage.isCounted, answerTo, Effect.isReport, Nat.add_assoc] using ih

/-- A run has been answered once it has taken its steps, whatever comes in between. -/
theorem Single.leaves (hsingle : s.Single) {n : Nat} {now : Timestamp} {stage : Stage}
    (hone : s.underWay = [⟨n, now, stage⟩]) (hmany : stage.remaining d n < events.count (.go n)) :
    ∃ a, a ≠ .ok none ∧ .answered n a ∈ s.effects b d events := by
  induction events generalizing s stage with
  | nil => exact absurd hmany (Nat.not_lt_zero _)
  | cons e rest ih =>
    have hnext := hsingle.step b d e
    have hmoves := hsingle.moves b d e
    rw [effects_cons]
    suffices h : (∃ a, a ≠ .ok none ∧ .answered n a ∈ (s.step b d e).2) ∨
        ∃ stage, (s.step b d e).1.underWay = [⟨n, now, stage⟩] ∧
          stage.remaining d n < rest.count (.go n) by
      rcases h with ⟨a, ha, hmem⟩ | ⟨stage', hone', hmany'⟩
      · exact ⟨a, ha, List.mem_append_left _ hmem⟩
      · obtain ⟨a, ha, hmem⟩ := ih hnext hone' hmany'
        exact ⟨a, ha, List.mem_append_right _ hmem⟩
    -- what is left is about one event: it answers the run, or leaves it as many steps as it still has
    clear ih hnext
    generalize s.step b d e = r at hmoves
    cases hmoves with
    | begins t hnone hflag => cases hnone.symm.trans hone
    | turnedAway t hflag => exact .inr ⟨stage, hone, by simpa using hmany⟩
    | @nobody k habsent =>
      have hk : n ≠ k := habsent _ (by rw [hone]; exact List.mem_singleton_self _)
      refine .inr ⟨stage, hone, ?_⟩
      rwa [List.count_cons_of_ne (by simpa using hk.symm)] at hmany
    | @goesOn k t stage' p hone' hpos hp =>
      cases hone.symm.trans hone'
      subst hp
      have hnearer := (next_keeps b d n now s.manager s.store stage).nearer hpos
      rw [List.count_cons_self] at hmany
      exact .inr ⟨_, rfl, by omega⟩
    | @leaves k t result hone' =>
      cases hone.symm.trans hone'
      refine .inl ⟨answerTo result, ?_, List.mem_singleton_self _⟩
      cases result <;> simp [answerTo]

end

/-! ## Runs inside a run -/

/-- A catalog that asks for another run is told that one is under way, and that is all it comes to. -/
theorem run_nesting {m : PurgeManager} (hidle : m.isRunning = false) (targets : List PurgeTarget)
    (now now' : Timestamp) (s : σ) (o : NestedRun) :
    PurgeManager.run b (.nesting b now' targets) now ⟨m, s, o⟩ =
      PurgeManager.run b (.fixed targets) now
        ⟨m, s, if b.purgesPoints s then some (true, .ok none) else o⟩ := by
  rw [PurgeManager.run_of_idle hidle, PurgeManager.run_of_idle hidle]
  cases hpoints : b.purgesPoints s with
  | true =>
    have hasked : (Catalog.nesting b now' targets).targets ⟨m.begun, s, o⟩ =
        (targets, ⟨m.begun, s, some (true, .ok none)⟩) := rfl
    have hexpire : PurgeManager.expire b (.nesting b now' targets) now ⟨m.begun, s, o⟩ =
        PurgeManager.expire b (.fixed targets) now ⟨m.begun, s, some (true, .ok none)⟩ := by
      simp only [PurgeManager.expire, hpoints, hasked]
      rfl
    exact congrArg (fun r => conclude (goOn b (.fixed targets) r)) hexpire
  | false =>
    have hexpire : PurgeManager.expire b (.nesting b now' targets) now ⟨m.begun, s, o⟩ =
        PurgeManager.expire b (.fixed targets) now ⟨m.begun, s, o⟩ := by
      simp only [PurgeManager.expire, hpoints]
      rfl
    exact congrArg (fun r => conclude (goOn b (.fixed targets) r)) hexpire

/-! ## The result -/

/-- A run of this number was called when none was under way, and has failed: it has done what comes
before the place where it failed and nothing else, and has left the manager as it was, but for the
period handed over. -/
def Failed (b : Backend σ) (d : Directory) (s₀ : PurgeRuns σ) (events : List Event) (n : Nat)
    (f : Failure) (s' : PurgeRuns σ) : Prop :=
  ∃ before now middle e applied, events = before ++ .call now :: middle ∧
    (s₀.after b d before).underWay = [] ∧ (s₀.after b d before).calls = n ∧
    f = .ofBackend e ∧ s'.manager = { (s₀.after b d before).manager with applied } ∧
    PurgeManager.Fails b (d.targets n) (d.live n) now (s₀.after b d before).manager
      (s₀.after b d before).store e applied s'.store

/-- What holds after a history, and of any event that comes next. -/
structure SingleFlight (b : Backend σ) (d : Directory) (s₀ : PurgeRuns σ) (events : List Event)
    (s : PurgeRuns σ) : Prop where
  /-- At most one run is under way, and the manager knows. -/
  alone : s.underWay.length ≤ 1
  flag : s.manager.isRunning = true ↔ s.underWay ≠ []
  /-- No other run calls the backend. -/
  caller : ∀ e n operation done, .called n operation done ∈ (s.step b d e).2 →
    ∃ r, s.underWay = [r] ∧ r.number = n
  /-- A call that finds a run under way is answered with nothing, and changes nothing. -/
  turnedAway : s.underWay ≠ [] → ∀ now,
    s.step b d (.call now) = ({ s with calls := s.calls + 1 }, [.answered s.calls (.ok none)])
  /-- Any other call begins a run. -/
  begins : s.underWay = [] → ∀ now,
    (s.step b d (.call now)).1.underWay = [⟨s.calls, now, .opened⟩] ∧
      (s.step b d (.call now)).2 = []
  /-- Once a run has been answered, with a report or with a failure, none is under way; it has come to
  what it would have come to alone. -/
  answered : ∀ e n a, .answered n a ∈ (s.step b d e).2 → a ≠ .ok none →
    (s.step b d e).1.underWay = [] ∧ (s.step b d e).1.manager.isRunning = false ∧
      Alone b d s₀ events n (a, ⟨(s.step b d e).1.manager, (s.step b d e).1.store, ()⟩)
  failed : ∀ e n f, .answered n (.error f) ∈ (s.step b d e).2 →
    Failed b d s₀ events n f (s.step b d e).1
  /-- Runs that end with a report are counted, and no others. -/
  runs : s.manager.runs = (s₀.effects b d events).countP Effect.isReport + s.counted
  /-- A run is answered once it has taken enough steps, whatever comes in between. -/
  ends : ∀ r, s.underWay = [r] → ∀ more : List Event,
    r.stage.remaining d r.number < more.count (.go r.number) →
      ∃ a, a ≠ .ok none ∧ .answered r.number a ∈ s.effects b d more
  /-- A run that its own catalog asks for is turned away as well, and the run goes on as it would. -/
  nested : s.underWay = [] → ∀ (targets : List PurgeTarget) (now now' : Timestamp) (o : NestedRun),
    PurgeManager.run b (.nesting b now' targets) now ⟨s.manager, s.store, o⟩ =
      PurgeManager.run b (.fixed targets) now
        ⟨s.manager, s.store, if b.purgesPoints s.store then some (true, .ok none) else o⟩

section

variable {s s₀ : PurgeRuns σ} {events : List Event}

theorem Single.caller (h : s.Single) {e : Event} {n : Nat} {operation : Operation} {done : Bool}
    (hcalled : .called n operation done ∈ (s.step b d e).2) :
    ∃ r, s.underWay = [r] ∧ r.number = n := by
  have hmoves := h.moves b d e
  generalize s.step b d e = r at hmoves hcalled
  cases hmoves with
  | begins now hnone hflag => cases hcalled
  | turnedAway now hflag => cases List.mem_singleton.1 hcalled
  | nobody habsent => cases hcalled
  | @goesOn k now stage p hone hpos hp =>
    obtain ⟨c, -, hc⟩ : ∃ c, p.called = some c ∧
        Effect.called k c.1 c.2 = .called n operation done := by
      simpa using hcalled
    cases hc
    exact ⟨_, hone, rfl⟩
  | leaves hone => cases List.mem_singleton.1 hcalled

/-- A run is answered with its last step. -/
theorem Single.answered (h : s₀.Single) (hnone : s₀.underWay = []) {e : Event} {n : Nat}
    {a : Except Failure (Option PurgeReport)}
    (hanswered : .answered n a ∈ ((s₀.after b d events).step b d e).2) (ha : a ≠ .ok none) :
    let s' := ((s₀.after b d events).step b d e).1
    s'.underWay = [] ∧ s'.manager.isRunning = false ∧
      Alone b d s₀ events n (a, ⟨s'.manager, s'.store, ()⟩) := by
  have halone := @Single.alone σ b d s₀ h hnone events
  have hmoves := (h.after b d events).moves b d e
  generalize s₀.after b d events = s at halone hmoves hanswered
  generalize s.step b d e = r at hmoves hanswered
  cases hmoves with
  | begins now hnone hflag => cases hanswered
  | turnedAway now hflag =>
    obtain ⟨-, rfl⟩ := Effect.answered.inj (List.mem_singleton.1 hanswered)
    exact absurd rfl ha
  | nobody habsent => cases hanswered
  | goesOn hone hpos hp => simp at hanswered
  | leaves hone =>
    obtain ⟨rfl, rfl⟩ := Effect.answered.inj (List.mem_singleton.1 hanswered)
    exact ⟨rfl, rfl, halone _ (by rw [hone]; exact List.mem_singleton_self _)⟩

/-- What a run alone does when it fails. -/
theorem Alone.failed (h₀ : s₀.Single) {n : Nat} {f : Failure} {s' : PurgeRuns σ}
    (h : Alone b d s₀ events n (.error f, ⟨s'.manager, s'.store, ()⟩)) :
    Failed b d s₀ events n f s' := by
  obtain ⟨before, now, middle, hevents, hnone, hcalls, hrun⟩ := h
  have hidle : (s₀.after b d before).manager.isRunning = false := by
    have hflag := (h₀.after b d before).flag_iff
    simpa [hnone] using hflag
  obtain ⟨e, applied, store, hf, hst, hfails⟩ := PurgeManager.run_error hidle hrun
  obtain ⟨hmanager, hstore, -⟩ := PurgeState.mk.inj hst
  exact ⟨before, now, middle, e, applied, hevents, hnone, hcalls, hf, hmanager, hstore ▸ hfails⟩

end

/-- However calls overlap and wherever the backend fails, runs are under way one at a time, and each
does what it would do alone. -/
theorem run_singleFlight (b : Backend σ) (d : Directory) (capabilities : Capabilities)
    (default : Option Period) (store : σ) (events : List Event) :
    SingleFlight b d (start capabilities default store) events
      ((start capabilities default store).after b d events) := by
  have hstart : (start capabilities default store).Single := .idle rfl rfl
  have hsingle := hstart.after b d events
  have hidle (hnone : (after b d (start capabilities default store) events).underWay = []) :
      (after b d (start capabilities default store) events).manager.isRunning = false := by
    simpa [hnone] using hsingle.flag_iff
  constructor
  case alone => exact hsingle.length_le
  case flag => exact hsingle.flag_iff
  case caller => exact fun e n operation done hcalled => hsingle.caller hcalled
  case turnedAway => exact fun hbusy now => call_of_running (hsingle.flag_iff.2 hbusy) now
  case begins =>
    intro hnone now
    have hstep : step b d _ (.call now) = _ := call_of_idle hnone (hidle hnone) now
    rw [hstep]
    exact ⟨rfl, rfl⟩
  case answered => exact fun e n a hanswered ha => hstart.answered rfl hanswered ha
  case failed =>
    intro e n f hanswered
    exact (hstart.answered rfl hanswered (by simp)).2.2.failed hstart
  case runs => simpa [start, PurgeManager.new] using hstart.runs rfl events
  case ends =>
    rintro ⟨n, now, stage⟩ hone more hmany
    exact hsingle.leaves hone hmany
  case nested =>
    exact fun hnone targets now now' o => run_nesting (hidle hnone) targets now now' _ o

/-- A call during a run is turned away; the run fails at its first target, for nothing is declared;
and the next call begins another. -/
example :
    let day : Timestamp := Int64.ofInt (40 * Calendar.dayLength)
    let d : Directory := ⟨fun _ => [⟨⟨7, 1⟩, none⟩], fun _ => []⟩
    let s := start .none (some ⟨30, .days⟩) Memory.new
    let events := [.call day, .go 0, .call day, .go 0, .go 0, .go 0, .call day]
    s.effects Memory.backend d events =
        [.called 0 .preference true, .answered 1 (.ok none),
          .answered 0 (.error (.unsupported .delete))] ∧
      (s.after Memory.backend d events).underWay.map (·.number) = [2] := by
  constructor <;> rfl

end PurgeRuns

end Historian
