import Historian.Database.Changes
import Historian.Proofs.Purge.Runs
import Historian.Proofs.Store.Changes

/-!
# Purging by a retention period

A manager hands its default period to the store and remembers that it has.  As long as nobody else
sets the period of the store, what the manager remembers is what the store has; otherwise a run may
let values expire by the other period.

* `PurgeManager.run_native` — one run, from what the manager remembers and what the store has.
* `PurgeState.Native.after`, `PurgeState.InSync.after` — what stays so over a history, by induction
  on its events.
* `PurgeManager.run_after_iff` — when a run lets values expire by the default period.
-/

set_option autoImplicit false

namespace Historian

namespace PurgeManager

variable {ω : Type} {manager : PurgeManager} {m : Memory} {p : Period} {now : Timestamp}

/-- The row is older than the cutoff of the period, if there is one. -/
def outdated (p : Option Period) (now : Timestamp) (r : Row) : Bool :=
  (p.bind fun p => p.cutoff now).any fun c => r.time < c

/-- The period of the store once the manager has handed over its own, or remembers that it has. -/
def handedOver (manager : PurgeManager) (p : Period) (m : Memory) : Option Period :=
  if manager.applied = some p then m.retention else some p

/-- The store has it, if it has what the manager remembers. -/
theorem handedOver_eq (h : manager.applied = some p → m.retention = some p) :
    manager.handedOver p m = some p := by
  unfold handedOver
  split
  · next happlied => exact h happlied
  · rfl

/-- The store lets values expire by the period that it has. -/
theorem enforceRetention_eq (hpolicy : m.capabilities.supports .retentionPolicy = true)
    (now : Timestamp) :
    ∃ a, Memory.enforceRetention now m =
        (.ok (some (m.archive.stored.countP (outdated m.retention now))), { m with archive := a }) ∧
      a.stored = m.archive.stored.filter fun r => !outdated m.retention now r := by
  have hdelete : ∀ change : Archive → Archive, (change m.archive).stored =
      m.archive.stored.filter (fun r => !outdated m.retention now r) →
        ∃ a, Memory.delete .retentionPolicy change m =
            (.ok (some (m.archive.stored.countP (outdated m.retention now))), { m with archive := a }) ∧
          a.stored = m.archive.stored.filter fun r => !outdated m.retention now r :=
    fun change hstored => ⟨_, Memory.delete_eq hpolicy change _ hstored, hstored⟩
  unfold Memory.enforceRetention
  refine hdelete _ ?_
  unfold outdated
  cases m.retention.bind fun p => p.cutoff now with
  | none => exact (List.filter_eq_self.2 fun r _ => rfl).symm
  | some cutoff => exact Archive.stored_removeEverywhere m.archive ⟨none, some cutoff⟩

/-- The report after the store has let so many values expire. -/
def withExpired (report : PurgeReport) (values : Nat) : PurgeReport :=
  { report with
    retentionApplied := true
    valuesDeleted := report.valuesDeleted + values }

theorem applyRetention_eq (hpolicy : m.capabilities.supports .retentionPolicy = true)
    (now : Timestamp) (report : PurgeReport) (o : ω) :
    ∃ a, applyRetention Memory.backend p now report ⟨manager, m, o⟩ =
        (.ok (withExpired report (m.archive.stored.countP (outdated (manager.handedOver p m) now))),
          ⟨{ manager with applied := some p },
            { m with archive := a, retention := manager.handedOver p m }, o⟩) ∧
      a.stored = m.archive.stored.filter fun r => !outdated (manager.handedOver p m) now r := by
  by_cases happlied : manager.applied = some p
  · obtain ⟨a, henforce, hstored⟩ := enforceRetention_eq hpolicy now
    have hmanager : { manager with applied := some p } = manager := by
      rw [← happlied]
    rw [handedOver, if_pos happlied, hmanager]
    refine ⟨a, ?_, hstored⟩
    simp only [applyRetention, happlied, if_true, Memory.backend, henforce]
    rfl
  · obtain ⟨a, henforce, hstored⟩ :=
      @enforceRetention_eq { m with retention := some p } hpolicy now
    rw [handedOver, if_neg happlied]
    refine ⟨a, ?_, hstored⟩
    have hrequire : m.capabilities.require .retentionPolicy = .ok () := by
      rw [Capabilities.require, if_pos hpolicy]
    simp only [applyRetention, happlied, if_false, Memory.backend, hrequire, henforce]
    rfl

section

variable (targets : List PurgeTarget) (live : List SeriesId) (o : ω)

/-- With a default period the store is asked to let values expire. -/
theorem expire_native (hnative : m.purgesPoints = false)
    (hsupports : manager.capabilities.supports .retentionPolicy = true)
    (hpolicy : m.capabilities.supports .retentionPolicy = true)
    (hdefault : manager.defaultPeriod = some p) (now : Timestamp) :
    ∃ report a, expire Memory.backend (.steady targets live) now ⟨manager, m, o⟩ =
        (.ok report, ⟨{ manager with applied := some p },
          { m with archive := a, retention := manager.handedOver p m }, o⟩) ∧
      report.valuesDeleted = m.archive.stored.countP (outdated (manager.handedOver p m) now) ∧
      a.stored = m.archive.stored.filter fun r => !outdated (manager.handedOver p m) now r := by
  let skipped := { PurgeReport.blank with pointsSkipped := true }
  obtain ⟨a, happly, hstored⟩ := @applyRetention_eq ω manager m p hpolicy now skipped o
  refine ⟨withExpired skipped (m.archive.stored.countP (outdated (manager.handedOver p m) now)), a,
    ?_, ?_, hstored⟩
  · unfold expire
    rw [if_neg (show ¬ Memory.backend.purgesPoints m = true by simp [Memory.backend, hnative])]
    dsimp only
    split
    · next period hperiod =>
      obtain rfl : p = period := Option.some.inj (hdefault.symm.trans hperiod)
      rw [if_pos hsupports]
      exact happly
    · next hperiod => exact absurd (hdefault.symm.trans hperiod) (by simp)
  · exact Nat.zero_add _

/-- Without one nothing expires. -/
theorem expire_native_none (hnative : m.purgesPoints = false)
    (hdefault : manager.defaultPeriod = none) (now : Timestamp) :
    expire Memory.backend (.steady targets live) now ⟨manager, m, o⟩ =
      (.ok { PurgeReport.blank with pointsSkipped := true }, ⟨manager, m, o⟩) := by
  have hskips : Memory.backend.purgesPoints m = false := hnative
  simp only [expire, hskips, hdefault, Bool.false_eq_true, if_false]

/-- A run by a default period. -/
theorem run_native (hnative : m.purgesPoints = false)
    (hcaps : manager.capabilities = m.capabilities)
    (hpolicy : m.capabilities.supports .retentionPolicy = true)
    (hidle : manager.isRunning = false) (hdefault : manager.defaultPeriod = some p)
    (now : Timestamp) :
    ∃ report a, run Memory.backend (.steady targets live) now ⟨manager, m, o⟩ =
        (.ok (some report), ⟨{ manager.ended with applied := some p },
          { m with archive := a, retention := manager.handedOver p m }, o⟩) ∧
      report.valuesDeleted = m.archive.stored.countP (outdated (manager.handedOver p m) now) ∧
      ∀ r, a.Holds r ↔ m.archive.Holds r ∧ outdated (manager.handedOver p m) now r = false ∧
        (m.capabilities.supports .deleteOrphaned = true → r.series ∈ live) := by
  have hsupports : manager.capabilities.supports .retentionPolicy = true := by rw [hcaps, hpolicy]
  obtain ⟨expiry, a, hexpire, hvalues, hleft⟩ :=
    @expire_native ω manager.begun m p targets live o hnative hsupports hpolicy hdefault now
  obtain ⟨a', horphans, hkept⟩ := @removeOrphans_eq ω targets live expiry
    { manager.begun with applied := some p }
    { m with archive := a, retention := manager.begun.handedOver p m } o hcaps
  refine ⟨_, a', run_of_expire hidle hexpire horphans, hvalues, fun r => ?_⟩
  have hhanded : manager.begun.handedOver p m = manager.handedOver p m := rfl
  rw [← Archive.mem_stored, ← Archive.mem_stored, hkept, hleft, hhanded, List.mem_filter,
    List.mem_filter]
  cases m.capabilities.supports .deleteOrphaned <;> simp [and_assoc]

/-- A run without a default period only removes orphans. -/
theorem run_native_none (hnative : m.purgesPoints = false)
    (hcaps : manager.capabilities = m.capabilities) (hidle : manager.isRunning = false)
    (hdefault : manager.defaultPeriod = none) (now : Timestamp) :
    ∃ report a, run Memory.backend (.steady targets live) now ⟨manager, m, o⟩ =
      (.ok (some report), ⟨manager.ended, { m with archive := a }, o⟩) := by
  have hexpire := @expire_native_none ω manager.begun m targets live o hnative hdefault now
  obtain ⟨a, horphans, -⟩ := @removeOrphans_eq ω targets live _ manager.begun m o hcaps
  exact ⟨_, a, run_of_expire hidle hexpire horphans⟩

end

end PurgeManager

/-! ## Histories -/

/-- What may happen to a manager and its store. -/
inductive PurgeEvent
  | run (targets : List PurgeTarget) (live : List SeriesId) (now : Timestamp)
  | setDefaultPeriod (p : Option Period)
  /-- Somebody changes the store, its period included. -/
  | change (c : Memory.Change)
  /-- Somebody sets the period of the store through a database over it. -/
  | setRetention (db : { db : Database Memory // db.backend = Memory.backend }) (p : Period)

namespace PurgeEvent

variable {ω : Type}

/-- What an event leaves. -/
def apply (st : PurgeState Memory ω) : PurgeEvent → PurgeState Memory ω
  | run targets live now => (PurgeManager.run Memory.backend (.steady targets live) now st).2
  | setDefaultPeriod p => PurgeManager.change (fun m => m.setDefaultPeriod p) st
  | change c => { st with store := c.apply st.store }
  | setRetention db p => { st with store := (db.1.setRetention p st.store).2 }

/-- Whether somebody other than the manager sets the period of the store. -/
def SetsPeriod : PurgeEvent → Prop
  | change (.setRetention _) => True
  | setRetention .. => True
  | _ => False

end PurgeEvent

/-- A database refuses to set the period, or the store sees to it. -/
theorem Database.setRetention_eq {db : Database Memory} (hdb : db.backend = Memory.backend)
    (p : Period) (m : Memory) :
    (db.setRetention p m).2 = m ∨
      (db.setRetention p m).2 = (Memory.Change.setRetention p).apply m := by
  unfold Database.setRetention Database.callWith
  cases db.require .retentionPolicy with
  | error e => exact .inl rfl
  | ok u => exact .inr (by rw [hdb]; rfl)

namespace PurgeState

variable {ω : Type}

/-- What a history leaves. -/
def after (st : PurgeState Memory ω) (events : List PurgeEvent) : PurgeState Memory ω :=
  events.foldl PurgeEvent.apply st

/-- A manager between runs, over a store that lets values expire by itself. -/
structure Native (st : PurgeState Memory ω) : Prop where
  skips : st.store.purgesPoints = false
  capabilities : st.manager.capabilities = st.store.capabilities
  policy : st.store.capabilities.supports .retentionPolicy = true
  idle : st.manager.isRunning = false

theorem Native.change {st : PurgeState Memory ω} (h : st.Native) (c : Memory.Change) :
    Native { st with store := c.apply st.store } where
  skips := (c.apply_purgesPoints st.store).trans h.skips
  capabilities := h.capabilities.trans (c.apply_capabilities st.store).symm
  policy := by rw [c.apply_capabilities]; exact h.policy
  idle := h.idle

/-- What the manager remembers is what the store has. -/
def InSync (st : PurgeState Memory ω) : Prop :=
  ∀ p, st.manager.applied = some p → st.store.retention = some p

/-- A run keeps both. -/
theorem Native.run {st : PurgeState Memory ω} (h : st.Native) (targets : List PurgeTarget)
    (live : List SeriesId) (now : Timestamp) :
    ((PurgeEvent.run targets live now).apply st).Native ∧
      (st.InSync → ((PurgeEvent.run targets live now).apply st).InSync) := by
  show (PurgeManager.run Memory.backend (.steady targets live) now st).2.Native ∧
    (st.InSync → (PurgeManager.run Memory.backend (.steady targets live) now st).2.InSync)
  cases hdefault : st.manager.defaultPeriod with
  | none =>
    obtain ⟨report, a, hrun⟩ := PurgeManager.run_native_none targets live st.outside h.skips
      h.capabilities h.idle hdefault now
    rw [hrun]
    exact ⟨⟨h.skips, h.capabilities, h.policy, rfl⟩, id⟩
  | some p =>
    obtain ⟨report, a, hrun, -⟩ := PurgeManager.run_native targets live st.outside h.skips
      h.capabilities h.policy h.idle hdefault now
    rw [hrun]
    refine ⟨⟨h.skips, h.capabilities, h.policy, rfl⟩, fun hsync q hq => ?_⟩
    exact (PurgeManager.handedOver_eq (hsync p)).trans hq

theorem Native.apply {st : PurgeState Memory ω} (h : st.Native) (e : PurgeEvent) :
    (e.apply st).Native := by
  cases e with
  | run targets live now => exact (h.run targets live now).1
  | setDefaultPeriod p => exact ⟨h.skips, h.capabilities, h.policy, h.idle⟩
  | change c => exact h.change c
  | setRetention db p =>
    show Native { st with store := (db.1.setRetention p st.store).2 }
    rcases Database.setRetention_eq db.2 p st.store with hsame | hset
    · rw [hsame]
      exact h
    · rw [hset]
      exact h.change (.setRetention p)

theorem Native.after {st : PurgeState Memory ω} (h : st.Native) (events : List PurgeEvent) :
    (st.after events).Native := by
  unfold PurgeState.after
  induction events generalizing st with
  | nil => exact h
  | cons e rest ih => exact ih (h.apply e)

/-- Only somebody else can bring apart what the manager remembers and what the store has. -/
theorem InSync.apply {st : PurgeState Memory ω} (h : st.InSync) (hnative : st.Native)
    {e : PurgeEvent} (he : ¬ e.SetsPeriod) : (e.apply st).InSync := by
  cases e with
  | run targets live now => exact (hnative.run targets live now).2 h
  | setDefaultPeriod p => exact h
  | change c =>
    intro q hq
    refine (c.apply_retention st.store fun p hp => he ?_).trans (h q hq)
    rw [hp]
    trivial
  | setRetention db p => exact absurd trivial he

theorem InSync.after {st : PurgeState Memory ω} (h : st.InSync) (hnative : st.Native)
    {events : List PurgeEvent} (hothers : ∀ e ∈ events, ¬ e.SetsPeriod) :
    (st.after events).InSync := by
  unfold PurgeState.after
  induction events generalizing st with
  | nil => exact h
  | cons e rest ih =>
    exact ih (h.apply hnative (hothers e List.mem_cons_self)) (hnative.apply e)
      fun e he => hothers e (List.mem_cons_of_mem _ he)

end PurgeState

namespace PurgeManager

variable {ω : Type} {p : Period} {now c : Timestamp}

/-- The run has let expire what is older than the cutoff of the period, and nothing else; what
belongs to no live series is removed besides, where the store can do that. -/
structure ExpiredBy (p : Period) (c : Timestamp) (live : List SeriesId) (before after : Memory)
    (report : PurgeReport) : Prop where
  kept : ∀ r, after.archive.Holds r ↔ before.archive.Holds r ∧ c ≤ r.time ∧
    (before.capabilities.supports .deleteOrphaned = true → r.series ∈ live)
  values : report.valuesDeleted = before.archive.stored.countP fun r => r.time < c
  retention : after.retention = some p

theorem outdated_eq (hcutoff : p.cutoff now = some c) :
    outdated (some p) now = fun r => decide (r.time < c) := by
  funext r
  simp [outdated, hcutoff]

/-- A run goes by the default period unless the manager remembers that it has handed it over, and
the store has another one since. -/
theorem run_after_iff {m : Memory} (hnative : m.purgesPoints = false)
    (hpolicy : m.capabilities.supports .retentionPolicy = true) (default : Option Period) (o : ω)
    (events : List PurgeEvent) (targets : List PurgeTarget) (live : List SeriesId)
    (hperiod : (PurgeState.after ⟨new m.capabilities default, m, o⟩ events).manager.defaultPeriod =
      some p) (hcutoff : p.cutoff now = some c) :
    let st := PurgeState.after ⟨new m.capabilities default, m, o⟩ events
    ∃ report st', run Memory.backend (.steady targets live) now st = (.ok (some report), st') ∧
      (ExpiredBy p c live st.store st'.store report ↔
        (st.manager.applied = some p → st.store.retention = some p)) ∧
      ((∀ e ∈ events, ¬ e.SetsPeriod) → ExpiredBy p c live st.store st'.store report) := by
  intro st
  have hstart : PurgeState.Native ⟨new m.capabilities default, m, o⟩ := ⟨hnative, rfl, hpolicy, rfl⟩
  have hst : st.Native := hstart.after events
  obtain ⟨report, a, hrun, hvalues, hkept⟩ := run_native targets live st.outside hst.skips
    hst.capabilities hst.policy hst.idle hperiod now
  have hiff : ExpiredBy p c live st.store
      { st.store with archive := a, retention := st.manager.handedOver p st.store } report ↔
        (st.manager.applied = some p → st.store.retention = some p) := by
    constructor
    · intro h happlied
      have hretention := h.retention
      rwa [handedOver, if_pos happlied] at hretention
    · intro h
      have hhanded := handedOver_eq h
      rw [hhanded, outdated_eq hcutoff] at hvalues hkept
      exact ⟨fun r => by simpa using hkept r, hvalues, hhanded⟩
  refine ⟨report, _, hrun, hiff, fun hothers => hiff.2 ?_⟩
  have hsync : PurgeState.InSync ⟨new m.capabilities default, m, o⟩ := fun q hq => nomatch hq
  exact hsync.after hstart hothers p

/-- With a week, a database then sets a day, and the manager is told two weeks: it hands these over. -/
theorem run_after_iff_new_default :
    let day (n : Int) : Timestamp := Int64.ofInt (n * Calendar.dayLength)
    let sample (n : Int) : Sample := ⟨day n, .flag true, none⟩
    let m : Memory := { Memory.new with
      purgesPoints := false
      archive := Archive.empty.putAll [(1, sample 20), (1, sample 25), (2, sample 38)] }
    let db : Database Memory := ⟨Memory.backend, .all, 1, 1, by decide, by decide⟩
    let events : List PurgeEvent := [.run [] [1, 2] (day 20), .setRetention ⟨db, rfl⟩ ⟨1, .days⟩,
      .setDefaultPeriod (some ⟨2, .weeks⟩)]
    let st := PurgeState.after ⟨new m.capabilities (some ⟨1, .weeks⟩), m, ()⟩ events
    st.store.retention = some ⟨1, .days⟩ ∧ st.manager.applied = some ⟨1, .weeks⟩ ∧
      ∃ report st', run Memory.backend (.steady [] [1, 2]) (day 40) st = (.ok (some report), st') ∧
        ExpiredBy ⟨2, .weeks⟩ (day 26) [1, 2] st.store st'.store report := by
  intro day sample m db events st
  have hnative : m.purgesPoints = false := rfl
  have hpolicy : m.capabilities.supports .retentionPolicy = true := rfl
  have hperiod : st.manager.defaultPeriod = some ⟨2, .weeks⟩ := by decide +kernel
  have hcutoff : Period.cutoff ⟨2, .weeks⟩ (day 40) = some (day 26) := by decide +kernel
  have happlied : st.manager.applied = some ⟨1, .weeks⟩ := by decide +kernel
  obtain ⟨report, st', hrun, hiff, -⟩ :=
    run_after_iff hnative hpolicy (some ⟨1, .weeks⟩) () events [] [1, 2] hperiod hcutoff
  refine ⟨by decide +kernel, happlied, report, st', hrun, hiff.2 fun hother => ?_⟩
  exact absurd (happlied.symm.trans hother) (by decide)

/-- With a week all the time, a day that a database has set in between is what the values of the
store expire by. -/
theorem run_after_other_period :
    let day (n : Int) : Timestamp := Int64.ofInt (n * Calendar.dayLength)
    let m : Memory := { Memory.new with
      purgesPoints := false
      archive := Archive.empty.putAll [(1, ⟨day 38, .flag true, none⟩)] }
    let db : Database Memory := ⟨Memory.backend, .all, 1, 1, by decide, by decide⟩
    let st := PurgeState.after ⟨new m.capabilities (some ⟨1, .weeks⟩), m, ()⟩
      [.run [] [1] (day 40), .setRetention ⟨db, rfl⟩ ⟨1, .days⟩]
    st.manager.defaultPeriod = some ⟨1, .weeks⟩ ∧
      Period.cutoff ⟨1, .weeks⟩ (day 40) = some (day 33) ∧
      ∃ report st', run Memory.backend (.steady [] [1]) (day 40) st = (.ok (some report), st') ∧
        report.valuesDeleted = 1 ∧ st'.store.retention = some ⟨1, .days⟩ ∧
        ¬ ExpiredBy ⟨1, .weeks⟩ (day 33) [1] st.store st'.store report := by
  intro day m db st
  have hreport : (run Memory.backend (.steady [] [1]) (day 40) st).1.toOption =
      some (some ⟨true, true, 0, 1, false, some 0⟩) := by decide +kernel
  have hretention : (run Memory.backend (.steady [] [1]) (day 40) st).2.store.retention =
      some ⟨1, .days⟩ := by decide +kernel
  cases hrun : run Memory.backend (.steady [] [1]) (day 40) st with
  | mk result st' =>
    rw [hrun] at hreport hretention
    cases result with
    | error e => exact absurd hreport (by simp [Except.toOption])
    | ok report =>
      obtain rfl := Option.some.inj hreport
      refine ⟨by decide +kernel, by decide +kernel, _, st', rfl, rfl, hretention, fun h => ?_⟩
      exact absurd (hretention.symm.trans h.retention) (by decide)

end PurgeManager

end Historian
