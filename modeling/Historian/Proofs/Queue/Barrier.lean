import Historian.Proofs.Queue.Waking
import Historian.Proofs.Store.Standing

/-!
# Flushing

A flush returns when it finds nothing pending, so whatever was accepted before it was asked for has
been to the backend by then; and it returns as soon as that is so, although it sleeps meanwhile.

* `Pool.stands` — a sample that came back stored is found by reads, until its place is touched again.
* `WakingPool.seenThrough_of_flushed` — what was accepted before a flush has come back when it returns.
* `WakingPool.run_flush` — all of it, for every run of a pool whose sleepers have to be woken.
-/

set_option autoImplicit false

namespace Historian

namespace Pool

/-! ## What reads find -/

/-- Where the sample belongs in a store. -/
def Item.place (x : Item) : Place := (x.series, x.sample.time)

/-- The sample as a read finds it. -/
def Item.row (x : Item) : Row := ⟨x.series, x.sample.time, x.sample.payload, x.sample.note⟩

/-- What happens around a store that a pool writes to. -/
inductive Deed
  | pool (effect : Effect)
  /-- Somebody else changes what the store holds. -/
  | other (change : Memory.Change)

/-- What the pool does. -/
def Deed.effect? : Deed → Option Effect
  | pool effect => some effect
  | other _ => none

/-- What is asked of the store: a batch that comes back has been inserted. -/
def Deed.change? : Deed → Option Memory.Change
  | pool (.returned _ batch _) => some (.insertBatch (batch.map Item.entry))
  | pool _ => none
  | other change => some change

/-- The store after all that. -/
def after (m : Memory) (deeds : List Deed) : Memory := m.applyAll (deeds.filterMap Deed.change?)

/-- The store tells the pool what has become of its batches. -/
def Told (m : Memory) (deeds : List Deed) : Prop :=
  ∀ earlier i batch stored later, deeds = earlier ++ .pool (.returned i batch stored) :: later →
    ((after m earlier).insertBatch (batch.map Item.entry)).1.isOk = stored

/-- From the return of its batch on, the sample is found by every read that covers its place and does
not fail, unless the same batch or somebody else later writes there or removes it. -/
def Stands (m : Memory) (deeds : List Deed) (i : Nat) (batch : List Item) (x : Item) : Prop :=
  ∃ earlier later, deeds = earlier ++ .pool (.returned i batch true) :: later ∧
    ∀ first rest, batch = first ++ x :: rest → (∀ y ∈ rest, y.place ≠ x.place) →
      Memory.Spares x.place (after m (earlier ++ [.pool (.returned i batch true)]))
        (later.filterMap Deed.change?) →
      ∀ request : Scan, request.limit = none → x.series ∈ request.series →
        request.window.contains x.sample.time → (after m deeds).failingScans = 0 →
          x.row ∈ (Memory.scan request (after m deeds)).1.rows

theorem after_returned (m : Memory) (earlier later : List Deed) (i : Nat) (batch : List Item)
    (stored : Bool) :
    after m (earlier ++ .pool (.returned i batch stored) :: later) =
      ((after m earlier).insertBatch (batch.map Item.entry)).2.applyAll
        (later.filterMap Deed.change?) := by
  rw [after, List.filterMap_append, Memory.applyAll, List.foldl_append]
  rfl

/-- What has come back stored stands. -/
theorem stands {m : Memory} {deeds : List Deed} (htold : Told m deeds) {i : Nat} {batch : List Item}
    (hback : (i, batch, true) ∈ returned (deeds.filterMap Deed.effect?)) (x : Item) :
    Stands m deeds i batch x := by
  obtain ⟨effect, heffect, hreturns⟩ := List.mem_filterMap.1 hback
  obtain ⟨deed, hdeed, hpool⟩ := List.mem_filterMap.1 heffect
  obtain rfl : deed = .pool effect := by
    cases deed with
    | pool => exact congrArg Deed.pool (Option.some.inj hpool)
    | other => cases hpool
  obtain rfl : effect = .returned i batch true := by
    cases effect with
    | returned j b stored => simpa [Effect.returns?] using hreturns
    | _ => cases hreturns
  obtain ⟨earlier, later, rfl⟩ := List.append_of_mem hdeed
  refine ⟨earlier, later, rfl, ?_⟩
  rintro first rest rfl hlast hspared request hlimit hseries hwindow hscans
  have hok := htold earlier i _ true later rfl
  have hlast' : ∀ e ∈ rest.map Item.entry, (e.1, e.2.time) ≠ (x.series, x.sample.time) := by
    intro e he
    obtain ⟨y, hy, rfl⟩ := List.mem_map.1 he
    exact hlast y hy
  rw [after_returned] at hspared hscans ⊢
  rw [List.map_append, List.map_cons] at hok hspared hscans ⊢
  exact Memory.mem_scan_of_batch hok hlast' hspared hlimit hseries hwindow hscans

end Pool

namespace WakingPool

open Pool (Effect Request Outcome Item SeenThrough Deed Told Stands accepted handedOver returned)

/-! ## What has been accepted before -/

theorem requests_append (events later : List Event) :
    requests (events ++ later) = requests events ++ requests later :=
  List.flatMap_append

/-- What has been accepted by a run stays accepted when the run goes on. -/
theorem mem_accepted_append {settings : WriterSettings} {valid : settings.Valid} {tick now : Nat}
    {before more : List Event} {x : Item}
    (hx : x ∈ accepted (requests before) ((start settings valid tick now).run before).2) :
    x ∈ accepted (requests (before ++ more)) ((start settings valid tick now).run (before ++ more)).2 := by
  rw [requests_append, runs.append, (run_alert settings valid tick now before).accepted_append]
  exact List.mem_append_left _ hx

/-- Where a run has made the call of a number, it has come to the event that makes it. -/
theorem exists_append_of_made {first last before after : List Event} {e f : Event}
    (hsplit : before ++ f :: after = first ++ e :: last)
    (hmade : (requests before).length < (requests (first ++ [e])).length) :
    ∃ more, first = before ++ more := by
  rcases List.append_eq_append_iff.1 hsplit with ⟨more, hfirst, -⟩ | ⟨more, hbefore, hmore⟩
  · exact ⟨more, hfirst⟩
  · cases more with
    | nil => exact ⟨[], by simpa using hbefore.symm⟩
    | cons d more =>
      obtain ⟨rfl, -⟩ := List.cons.inj hmore
      have hlength := congrArg List.length (requests_append (first ++ [e]) more)
      rw [List.append_assoc, List.singleton_append, ← hbefore, List.length_append] at hlength
      omega

/-- When a flush returns, all that was accepted before it was asked for has come back. -/
theorem seenThrough_of_flushed {settings : WriterSettings} {valid : settings.Valid} {tick now : Nat}
    {before after : List Event} {earlier later : List Effect} {o : Outcome}
    (h : ((start settings valid tick now).run (before ++ .pool (.call .flush) :: after)).2 =
      earlier ++ .answered (requests before).length o :: later) :
    o = .flushed ∧
      ∀ x ∈ accepted (requests before) ((start settings valid tick now).run before).2,
        SeenThrough earlier x := by
  obtain ⟨first, e, last, hsplit, rfl, hmem⟩ :=
    runs.exists_step (fun _ _ hmem => (step_answering hmem).2) h
  have hfirst := run_alert settings valid tick now first
  have hstep := run_alert settings valid tick now (first ++ [e])
  have hmade : (requests before).length < (requests (first ++ [e])).length := by
    refine hstep.answered_lt _ (List.mem_filterMap.2 ⟨.answered _ o, ?_, rfl⟩)
    rw [runs.concat]
    exact List.mem_append_right _ hmem
  obtain ⟨more, rfl⟩ := exists_append_of_made hsplit hmade
  obtain ⟨⟨e', r, hne, hsame, hanswering⟩, -⟩ := step_answering hmem
  -- the call of this number is the flush
  obtain rfl : r = .flush := by
    have hevents : requests (before ++ .pool (.call .flush) :: after) =
        (requests (before ++ more) ++ e'.made) ++ requests last := by
      rw [hsplit, requests_append (before ++ more), List.append_assoc, hsame]
      rfl
    have hflush : (requests (before ++ .pool (.call .flush) :: after))[(requests before).length]? =
        some .flush := by
      rw [requests_append, List.getElem?_append_right (Nat.le_refl _), Nat.sub_self]
      rfl
    rw [hevents] at hflush
    exact Pool.request_eq_of_append (hfirst.request_of_answering hanswering) hflush
  generalize (requests before).length = n at hanswering
  cases hanswering with
  | nothingToFlush => exact absurd rfl hne
  | flushed c hc _ hpending =>
    exact ⟨rfl, fun x hx => hfirst.seenThrough hpending (mem_accepted_append hx)⟩

/-- Where every worker is at the backend, and only flushes wait, all of them asleep, nothing goes on. -/
theorem settled_of_writing {s : WakingPool} (hwriting : ∀ w ∈ s.pool.workers, w.isWriting = true)
    (hflush : ∀ c ∈ s.pool.waiting, c.request = .flush) (hpending : s.pool.pending ≠ 0)
    (halarms : s.alarms = 0) (hasleep : ∀ f ∈ s.flushes, f.2 = .asleep) : s.Settled := by
  have hwork : ∀ i, s.pool.work i = (s.pool, []) := fun i => by
    rw [Pool.work]
    cases hw : s.pool.workers[i]? with
    | none => rfl
    | some w =>
      obtain ⟨queue, activity⟩ := w
      cases activity with
      | writing batch turn => rfl
      | _ => cases hwriting _ (List.mem_of_getElem? hw)
  have hpoll : ∀ n, s.pool.poll n = (s.pool, []) := fun n => by
    rw [Pool.poll]
    cases hfind : s.pool.waitingCall? n with
    | none => rfl
    | some c => simp only [hflush c (Pool.exists_of_waitingCall? hfind).1, hpending, if_false]
  have hupdate : ∀ c (f : Stage → Stage), f .asleep = .asleep → s.update c f = s.flushes := by
    intro c f hf
    refine (List.map_congr_left fun x hx => ?_).trans (List.map_id _)
    split
    · exact Prod.ext rfl ((congrArg f (hasleep x hx)).trans (hf.trans (hasleep x hx).symm))
    · rfl
  intro e he
  cases e with
  | pool e =>
    cases e with
    | work i =>
      simp only [step, act, Pool.step, hwork]
      split <;> simp [after, hpending]
    | poll n =>
      simp only [step, act, Pool.step, hpoll]
      split <;> simp [after, hpending]
    | _ => cases he
  | listen c => exact ⟨rfl, rfl, hupdate c _ rfl, rfl⟩
  | look c =>
    rw [step, if_neg fun h => hpending h.1]
    exact ⟨rfl, rfl, hupdate c _ rfl, rfl⟩
  | alarm =>
    rw [step, halarms]
    exact ⟨rfl, rfl, rfl, halarms⟩
  | doze i => exact ⟨rfl, rfl, rfl, rfl⟩

/-- In every run a flush that returns has seen everything through that was accepted before it was asked
for, and what was stored of it stands.  Where nobody goes on by himself any more, something is pending
as long as a flush waits, at the backend or in a batch whose time has not come; and some of it is at
the backend, if every flush has been heard. -/
theorem run_flush (settings : WriterSettings) (valid : settings.Valid) (tick now : Nat)
    (before after : List Event) :
    let asked := (start settings valid tick now).run before
    let events := before ++ .pool (.call .flush) :: after
    let r := (start settings valid tick now).run events
    (∀ earlier o later, r.2 = earlier ++ .answered (requests before).length o :: later →
      o = .flushed ∧ ∀ x ∈ accepted (requests before) asked.2, ∃ i batch stored,
        (i, batch) ∈ handedOver earlier ∧ (i, batch, stored) ∈ returned earlier ∧ x ∈ batch ∧
          (stored = true → ∀ (m : Memory) (deeds : List Deed),
            deeds.filterMap Deed.effect? = r.2 → Told m deeds → Stands m deeds i batch x)) ∧
    (r.1.Settled → ∀ c ∈ r.1.pool.waiting, c.request = .flush →
      r.1.pool.pending ≠ 0 ∧
      (∃ w ∈ r.1.pool.workers, w.isWriting = true ∨
        ∃ batch deadline, w.activity = .gathering batch deadline ∧ r.1.pool.now < deadline) ∧
      (Heard (start settings valid tick now) events →
        ∃ w ∈ r.1.pool.workers, w.isWriting = true)) := by
  intro asked events r
  constructor
  · intro earlier o later hsplit
    obtain ⟨ho, hseen⟩ := seenThrough_of_flushed hsplit
    refine ⟨ho, fun x hx => ?_⟩
    obtain ⟨i, batch, stored, hhanded, hback, hmem⟩ := hseen x hx
    refine ⟨i, batch, stored, hhanded, hback, hmem, ?_⟩
    rintro rfl m deeds hdeeds htold
    refine Pool.stands htold ?_ x
    rw [hdeeds, hsplit, Pool.returned_append]
    exact List.mem_append_left _ hback
  · intro hsettled c hc hrequest
    have halert := run_alert settings valid tick now events
    exact ⟨halert.pending_of_settled hsettled hc hrequest,
      halert.waits_of_settled hsettled hc hrequest,
      fun hheard => (run_prompt settings valid tick now hheard).writing_of_settled hsettled hc hrequest⟩

/-- Two workers, whose batches are not full when the flush calls them; one batch is lost. -/
theorem run_flush_two_workers :
    let settings : WriterSettings := ⟨2, 2, 100, 10, .block⟩
    let sample : Sample := ⟨5, .flag true, none⟩
    let before : List Event := [.pool (.call (.save 1 sample)), .pool (.call (.save 2 sample)),
      .pool (.work 1), .doze 1, .pool (.work 0), .doze 0]
    let waits : List Event := [.listen 2, .pool (.work 0), .look 2, .pool (.work 1)]
    let returns : List Event := waits ++ [.pool (.finish 1 true), .pool (.finish 0 false), .alarm,
      .listen 2, .look 2]
    let earlier : List Effect := [.answered 0 .queued, .answered 1 .queued,
      .handedOver 0 [⟨1, 2, sample⟩], .handedOver 1 [⟨0, 1, sample⟩],
      .returned 1 [⟨0, 1, sample⟩] true, .returned 0 [⟨1, 2, sample⟩] false]
    ∃ valid : settings.Valid,
      let waiting := ((start settings valid 5000 0).run (before ++ .pool (.call .flush) :: waits)).1
      ((start settings valid 5000 0).run (before ++ .pool (.call .flush) :: returns)).2 =
          earlier ++ [.answered 2 .flushed] ∧
        (∀ x ∈ accepted (requests before) ((start settings valid 5000 0).run before).2,
          ∃ i batch stored, (i, batch) ∈ handedOver earlier ∧
            (i, batch, stored) ∈ returned earlier ∧ x ∈ batch) ∧
        waiting.Settled ∧ waiting.pool.pending ≠ 0 ∧
          ∃ w ∈ waiting.pool.workers, w.isWriting = true := by
  intro settings sample before waits returns earlier
  let valid : settings.Valid := WriterSettings.problem?_eq_none_iff.1 rfl
  have hreturns : ((start settings valid 5000 0).run
      (before ++ .pool (.call .flush) :: returns)).2 = earlier ++ [.answered 2 .flushed] := by decide
  have hsettled : ((start settings valid 5000 0).run
      (before ++ .pool (.call .flush) :: waits)).1.Settled :=
    settled_of_writing (by decide) (by decide) (by decide) (by decide) (by decide)
  have hheard : Heard (start settings valid 5000 0) (before ++ .pool (.call .flush) :: waits) := by
    decide
  obtain ⟨hpending, -, hwriting⟩ :=
    (run_flush settings valid 5000 0 before waits).2 hsettled ⟨2, .flush, 0⟩ (by decide) rfl
  refine ⟨valid, hreturns, fun x hx => ?_, hsettled, hpending, hwriting hheard⟩
  obtain ⟨i, batch, stored, hhanded, hback, hmem, -⟩ :=
    ((run_flush settings valid 5000 0 before returns).1 earlier .flushed [] hreturns).2 x hx
  exact ⟨i, batch, stored, hhanded, hback, hmem⟩

end WakingPool

end Historian
