import Historian.Proofs.Queue.Accounting
import Historian.Proofs.Queue.Answers
import Historian.Queue.Waking

/-!
# No wake-up is lost

Whoever is asleep in a `WakingPool` has nothing to do, or is about to be woken.

* `Pool.Rests` — a worker that has taken up every sample, and whose batch is not due;
  `WakingPool.rests_of_not_woken` says that it stays so until it is woken.
* `WakingPool.Alert`, `WakingPool.Alert.step` — a worker only sleeps while it rests, and a flush only
  while something is pending or an alarm is owed; `WakingPool.run_alert`: so it is in every run.
* `WakingPool.Prompt`, `WakingPool.run_prompt` — and a worker that fills a batch knows of every flush,
  if none is made in its pause.
* `WakingPool.Alert.pending_of_settled`, `WakingPool.Alert.waits_of_settled`,
  `WakingPool.Prompt.writing_of_settled` — what a flush waits for in a settled pool.
-/

set_option autoImplicit false

namespace Historian

/-! ## Workers that rest -/

namespace Pool

variable {p q : Pool} {i : Nat} {w : Worker}

theorem inHands_eq_zero {workers : List Worker} (h : ∀ w ∈ workers, w.load = []) :
    inHands workers = 0 := by
  induction workers with
  | nil => rfl
  | cons w rest ih =>
    rw [inHands, h w List.mem_cons_self, ih fun v hv => h v (List.mem_cons_of_mem _ hv)]
    rfl

/-- The worker waits for the backend, or has taken up every sample and waits for more or for the time
of its batch. -/
def Rests (p : Pool) (w : Worker) : Prop :=
  w.isWriting = true ∨
    w.queue = [] ∧ ∀ batch deadline, w.activity = .gathering batch deadline →
      batch.length < p.settings.maxBatch ∧ p.isOpen = true ∧ p.now < deadline

/-- A worker that fills a batch has not been called by a flush. -/
def Uncalled (p : Pool) (w : Worker) : Prop :=
  ∀ batch deadline, w.activity = .gathering batch deadline → p.flushers = 0

theorem rests_fresh (p : Pool) : p.Rests .fresh := .inr ⟨rfl, by simp [Worker.fresh]⟩

theorem Rests.congr (h : p.Rests w) (hsettings : q.settings = p.settings)
    (hopen : q.isOpen = p.isOpen) (hnow : q.now = p.now) : q.Rests w := by
  rwa [Rests, hsettings, hopen, hnow]

/-- Nothing speaks for handing over before the batch is full or its time has come. -/
theorem mustHandOver_eq_false {batch : List Item} {deadline : Nat} :
    p.mustHandOver batch deadline = false ↔
      batch.length < p.settings.maxBatch ∧ p.flushers = 0 ∧ p.isOpen = true ∧ p.now < deadline := by
  simp [mustHandOver, and_assoc]

/-- Filling a batch leaves the worker at rest: samples are only left in the queue of a full batch. -/
theorem rests_gather (hi : i < p.workers.length) (queue batch : List Item) (deadline : Nat) :
    ∃ w', (p.gather i queue batch deadline).1.workers[i]? = some w' ∧
      (p.gather i queue batch deadline).1.Rests w' ∧
      (p.gather i queue batch deadline).1.Uncalled w' := by
  simp only [gather]
  split
  · exact ⟨_, List.getElem?_set_self hi, .inl rfl, by simp [Uncalled]⟩
  · rename_i hkeeps
    obtain ⟨hspace, hflushers, hopen, hearly⟩ :=
      mustHandOver_eq_false.1 (eq_false_of_ne_true hkeeps)
    refine ⟨_, List.getElem?_set_self hi, .inr ⟨?_, ?_⟩, fun _ _ _ => hflushers⟩
    · rw [List.length_append, List.length_take] at hspace
      exact List.drop_eq_nil_of_le (by omega)
    · rintro _ _ ⟨⟩
      exact ⟨hspace, hopen, hearly⟩

/-- A worker that has gone on as far as it can rests. -/
theorem rests_work (hw : p.workers[i]? = some w) :
    ∃ w', (p.work i).1.workers[i]? = some w' ∧ (p.work i).1.Rests w' ∧
      (p.work i).1.Uncalled w' := by
  have hi : i < p.workers.length := (List.getElem?_eq_some_iff.1 hw).1
  obtain ⟨queue, activity⟩ := w
  rw [work, hw]
  cases activity with
  | idle =>
    cases queue with
    | nil => exact ⟨_, hw, rests_fresh p, by simp [Uncalled]⟩
    | cons x rest => exact rests_gather hi rest [x] _
  | gathering batch deadline => exact rests_gather hi queue batch deadline
  | writing batch turn => exact ⟨_, hw, .inl rfl, by simp [Uncalled]⟩

theorem work_getElem?_ne {j : Nat} (hij : j ≠ i) : (p.work j).1.workers[i]? = p.workers[i]? := by
  simp only [work, gather]
  repeat' split
  all_goals first | rfl | exact List.getElem?_set_ne hij

/-- A batch that comes back changes the worker that has waited for it, and no other. -/
theorem finish_getElem? (hw : p.workers[i]? = some w) (j : Nat) (stored : Bool) :
    (p.finish j stored).1.workers[i]? = some w ∨
      w.isWriting = true ∧ (p.finish j stored).1.workers[i]? = some ⟨w.queue, .idle⟩ := by
  simp only [finish]
  split
  · rename_i queue batch turn hj
    by_cases hij : j = i
    · subst hij
      rw [hw] at hj
      obtain rfl := Option.some.inj hj
      exact .inr ⟨rfl, List.getElem?_set_self (List.getElem?_eq_some_iff.1 hw).1⟩
    · exact .inl ((List.getElem?_set_ne hij).trans hw)
  · exact .inl hw

end Pool

namespace WakingPool

open Pool (Worker Effect Request Outcome Call Item Follows Move)

variable {p q : Pool} {s : WakingPool}

/-! ## What an event does to the pool -/

theorem act_of_ne {e : Pool.Event} (he : e ≠ .call .flush) : act p e = p.step e := by
  unfold act
  split
  · exact absurd rfl he
  · rfl

theorem act_move (p : Pool) (e : Pool.Event) : Move p (act p e).1 e.made (act p e).2 := by
  by_cases he : e = .call .flush
  · subst he
    exact .park .flush rfl rfl rfl rfl
  · rw [act_of_ne he]
    exact p.step_move e

theorem act_settings (p : Pool) (e : Pool.Event) : (act p e).1.settings = p.settings := by
  by_cases he : e = .call .flush
  · subst he
    rfl
  · rw [act_of_ne he]
    exact p.step_settings e

theorem act_workers_cases (p : Pool) (e : Pool.Event) :
    (act p e).1.workers = p.workers ∨
    (∃ i x, (act p e).1.workers = p.workers.modify i (Worker.enqueue x)) ∨
    (∃ i, e = .work i) ∨ ∃ i stored, e = .finish i stored := by
  by_cases he : e = .call .flush
  · subst he
    exact .inl rfl
  · rw [act_of_ne he]
    rcases p.workers_cases e with ⟨hworkers, -⟩ | ⟨i, x, n, hworkers, -⟩ | hwork | hfinish
    · exact .inl hworkers
    · exact .inr (.inl ⟨i, x, hworkers⟩)
    · exact .inr (.inr (.inl hwork))
    · exact .inr (.inr (.inr hfinish))

theorem act_waits (p : Pool) (e : Pool.Event) : Pool.Waits p (act p e).1 e := by
  by_cases he : e = .call .flush
  · subst he
    exact .park .flush (by simp) rfl rfl rfl
  · rw [act_of_ne he]
    exact p.step_waits e

/-! ## Who is woken -/

/-- A worker that rests and is not woken rests on. -/
theorem rests_of_not_woken {e : Pool.Event} {pauses : Bool} {w : Worker} (h : p.Rests w)
    (hsettings : q.settings = p.settings) (hasleep : wakes p q e pauses w w = false) : q.Rests w := by
  rcases h with h | ⟨hqueue, hkeeps⟩
  · exact .inl h
  · refine .inr ⟨hqueue, fun batch deadline hw => ?_⟩
    obtain ⟨hspace, hopen, hearly⟩ := hkeeps batch deadline hw
    simp only [wakes, hw, hopen, hearly, Nat.lt_irrefl, decide_false, Bool.false_or, Bool.true_and,
      decide_true, Bool.or_eq_false_iff, Bool.not_eq_false', decide_eq_false_iff_not,
      Nat.not_le] at hasleep
    obtain ⟨⟨hopen', -⟩, hearly'⟩ := hasleep
    exact ⟨by rwa [hsettings], hopen', hearly'⟩

theorem mem_wokenWorkers {e : Pool.Event} {i : Nat} {w w' : Worker}
    (hw : s.pool.workers[i]? = some w) (hw' : q.workers[i]? = some w')
    (h : wakes s.pool q e (s.pausing.contains i) w w' = true) : i ∈ s.wokenWorkers q e := by
  refine List.mem_map.2 ⟨((w, w'), i), List.mem_filter.2 ⟨?_, h⟩, rfl⟩
  rw [List.mem_zipIdx_iff_getElem?, List.getElem?_zip_eq_some]
  exact ⟨hw, hw'⟩

/-- Whoever is asleep after an event was so before, or has looked; and the event does not wake it. -/
theorem not_woken_after {e : Pool.Event} {i : Nat} (h : i ∉ (s.after e q).woken) :
    (i ∉ s.woken ∨ e = .work i) ∧ i ∉ s.wokenWorkers q e := by
  cases e with
  | work j =>
    simp only [after, List.mem_append, List.mem_filter, not_or, not_and, bne_iff_ne, ne_eq,
      not_not] at h
    refine ⟨?_, h.2⟩
    by_cases hmem : i ∈ s.woken
    · exact .inr (congrArg Pool.Event.work (h.1 hmem).symm)
    · exact .inl hmem
  | _ =>
    simp only [after, List.mem_append, not_or] at h
    exact ⟨.inl h.1, h.2⟩

/-! ## Stages -/

theorem exists_mem_update {c : Ticket} (h : ∃ stage, (c, stage) ∈ s.flushes) (d : Ticket)
    (f : Stage → Stage) : ∃ stage, (c, stage) ∈ s.update d f := by
  obtain ⟨stage, hmem⟩ := h
  by_cases hc : c = d
  · exact ⟨f stage, List.mem_map.2 ⟨_, hmem, if_pos hc⟩⟩
  · exact ⟨stage, List.mem_map.2 ⟨_, hmem, if_neg hc⟩⟩

theorem mem_flushes_of_mem_update {x : Ticket × Stage} {d : Ticket} {f : Stage → Stage}
    (hx : x ∈ s.update d f) :
    ∃ stage, (x.1, stage) ∈ s.flushes ∧ (x.2 = stage ∨ x.1 = d ∧ x.2 = f stage) := by
  obtain ⟨y, hy, rfl⟩ := List.mem_map.1 hx
  split
  · rename_i hyd
    exact ⟨y.2, hy, .inr ⟨hyd, rfl⟩⟩
  · exact ⟨y.2, hy, .inl rfl⟩

/-- A stage that is to change does not stay. -/
theorem update_ne {c : Ticket} {stage : Stage} {f : Stage → Stage} (hmem : (c, stage) ∈ s.flushes)
    (hf : f stage ≠ stage) : s.update c f ≠ s.flushes := by
  intro heq
  have hid : s.flushes.map (fun x => if x.1 = c then (x.1, f x.2) else x) = s.flushes.map id :=
    heq.trans (List.map_id _).symm
  have hsame := List.map_inj_left.1 hid _ hmem
  rw [if_pos rfl] at hsame
  exact hf (Prod.mk.inj hsame).2

theorem isListening_iff {c : Ticket} :
    s.isListening c = true ↔ ∃ alarmed, (c, .listening alarmed) ∈ s.flushes := by
  simp only [isListening, List.any_eq_true, Bool.and_eq_true, beq_iff_eq]
  constructor
  · rintro ⟨⟨d, stage⟩, hmem, rfl, hlistens⟩
    cases stage with
    | listening alarmed => exact ⟨alarmed, hmem⟩
    | _ => cases hlistens
  · rintro ⟨alarmed, hmem⟩
    exact ⟨_, hmem, rfl, rfl⟩

/-! ## Histories -/

/-- The request that an event makes, if any. -/
def Event.made : Event → List Request
  | .pool e => e.made
  | _ => []

/-- All requests of a run, by number. -/
def requests (events : List Event) : List Request := events.flatMap Event.made

variable {requests : List Request} {effects : List Effect}

/-- A waking pool that fits its history, and in which nobody sleeps who has something to do. -/
structure Alert (s : WakingPool) (requests : List Request) (effects : List Effect) : Prop extends
    Follows s.pool requests effects where
  asked : ∀ f ∈ s.flushes, requests[f.1]? = some .flush
  staged : ∀ c ∈ s.pool.waiting, c.request = .flush → ∃ stage, (c.number, stage) ∈ s.flushes
  pending_of_asleep : ∀ c, (c, .asleep) ∈ s.flushes → s.pool.pending ≠ 0 ∨ 0 < s.alarms
  rests_of_asleep : ∀ (i : Nat) w, s.pool.workers[i]? = some w → i ∉ s.woken → s.pool.Rests w

namespace Alert

/-- What has been asked for stays so. -/
theorem asked_append (h : Alert s requests effects) (made : List Request) {f : Ticket × Stage}
    (hf : f ∈ s.flushes) : (requests ++ made)[f.1]? = some .flush := by
  have hasked := h.asked f hf
  rwa [List.getElem?_append_left (List.getElem?_eq_some_iff.1 hasked).1]

/-! ### Events of the pool -/

/-- A flush that has been made is to listen. -/
theorem asked_act (h : Alert s requests effects) (e : Pool.Event) :
    ∀ f ∈ (s.after e (act s.pool e).1).flushes, (requests ++ e.made)[f.1]? = some .flush := by
  intro f hf
  cases e with
  | call request =>
    cases request with
    | flush =>
      rcases List.mem_append.1 hf with hf | hf
      · exact h.asked_append _ hf
      · obtain rfl := List.mem_singleton.1 hf
        show (requests ++ [.flush])[s.pool.calls]? = some .flush
        rw [h.calls_eq, List.getElem?_concat_length]
    | _ => exact h.asked_append _ hf
  | abandon n => exact h.asked_append _ (List.mem_filter.1 hf).1
  | _ => exact h.asked_append _ hf

theorem staged_act (h : Alert s requests effects) (e : Pool.Event) {c : Call}
    (hc : c ∈ (act s.pool e).1.waiting) (hrequest : c.request = .flush) :
    ∃ stage, (c.number, stage) ∈ (s.after e (act s.pool e).1).flushes := by
  rcases (act_waits s.pool e).mem_cases hc with hmem | ⟨rfl, hnumber, -⟩
  · obtain ⟨stage, hstage⟩ := h.staged c hmem hrequest
    refine ⟨stage, ?_⟩
    cases e with
    | call request =>
      cases request with
      | flush => exact List.mem_append_left _ hstage
      | _ => exact hstage
    | abandon n =>
      exact List.mem_filter.2 ⟨hstage, by simpa using (act_waits s.pool (.abandon n)).ne_of_abandon hc⟩
    | _ => exact hstage
  · rw [hrequest, hnumber]
    exact ⟨.arriving, List.mem_append_right _ List.mem_cons_self⟩

/-- The alarm that a flush is to be woken by is owed from the moment when nothing is pending. -/
theorem pending_act (h : Alert s requests effects) (e : Pool.Event) {c : Ticket}
    (hc : (c, .asleep) ∈ (s.after e (act s.pool e).1).flushes) :
    (act s.pool e).1.pending ≠ 0 ∨ 0 < (s.after e (act s.pool e).1).alarms := by
  have hbefore : (c, .asleep) ∈ s.flushes := by
    cases e with
    | call request =>
      cases request with
      | flush =>
        rcases List.mem_append.1 hc with hc | hc
        · exact hc
        · cases List.mem_singleton.1 hc
      | _ => exact hc
    | abandon n => exact (List.mem_filter.1 hc).1
    | _ => exact hc
  by_cases hafter : (act s.pool e).1.pending = 0
  · refine .inr ?_
    show 0 < if s.pool.pending ≠ 0 ∧ (act s.pool e).1.pending = 0 then s.alarms + 1 else s.alarms
    split
    · exact Nat.succ_pos _
    · rename_i hstill
      exact (h.pending_of_asleep c hbefore).resolve_left fun hpending => hstill ⟨hpending, hafter⟩
  · exact .inl hafter

theorem length_act (h : Alert s requests effects) (e : Pool.Event) :
    (act s.pool e).1.workers.length = s.pool.workers.length := by
  rw [(h.toFollows.move (act_settings _ e) (act_move _ e)).workers_length, act_settings,
    h.workers_length]

/-- A worker that sleeps after an event has just looked, or was asleep and is not concerned: every
change is a call to look. -/
theorem asleep_act (h : Alert s requests effects) (e : Pool.Event) {i : Nat} {w' : Worker}
    (hw' : (act s.pool e).1.workers[i]? = some w')
    (hasleep : i ∉ (s.after e (act s.pool e).1).woken) :
    e = .work i ∨ s.pool.workers[i]? = some w' ∧ i ∉ s.woken ∧
      wakes s.pool (act s.pool e).1 e (s.pausing.contains i) w' w' = false := by
  obtain ⟨hbefore, hnot⟩ := not_woken_after hasleep
  obtain ⟨w, hw⟩ : ∃ w, s.pool.workers[i]? = some w :=
    ⟨_, List.getElem?_eq_getElem (h.length_act e ▸ (List.getElem?_eq_some_iff.1 hw').1)⟩
  have hquiet : wakes s.pool (act s.pool e).1 e (s.pausing.contains i) w w' = false :=
    eq_false_of_ne_true fun hwakes => hnot (mem_wokenWorkers hw hw' hwakes)
  by_cases he : e = .work i
  · exact .inl he
  · refine .inr ?_
    have hsame : w' = w := by
      rcases act_workers_cases s.pool e with hworkers | ⟨j, x, hworkers⟩ | ⟨j, rfl⟩ |
        ⟨j, stored, rfl⟩
      · rw [hworkers, hw] at hw'
        exact (Option.some.inj hw').symm
      · rw [hworkers, List.getElem?_modify, hw] at hw'
        obtain rfl := Option.some.inj hw'
        by_cases hij : j = i
        · simp [wakes, hij, Worker.enqueue] at hquiet
        · simp [hij]
      · rw [act_of_ne (by simp), Pool.step,
          Pool.work_getElem?_ne (fun hij => he (congrArg Pool.Event.work hij)), hw] at hw'
        exact (Option.some.inj hw').symm
      · have hact := act_of_ne (p := s.pool) (e := .finish j stored) (by simp)
        rcases Pool.finish_getElem? hw j stored with hkept | ⟨hwriting, hidle⟩
        · rw [hact, Pool.step, hkept] at hw'
          exact (Option.some.inj hw').symm
        · rw [hact, Pool.step, hidle] at hw'
          obtain rfl := Option.some.inj hw'
          simp [wakes, hwriting] at hquiet
    subst hsame
    exact ⟨hw, hbefore.resolve_right he, hquiet⟩

/-- A worker that has gone on rests, and the others rest on. -/
theorem rests_act (h : Alert s requests effects) (e : Pool.Event) {i : Nat} {w : Worker}
    (hw : (act s.pool e).1.workers[i]? = some w)
    (hasleep : i ∉ (s.after e (act s.pool e).1).woken) : (act s.pool e).1.Rests w := by
  rcases h.asleep_act e hw hasleep with rfl | ⟨hbefore, hnot, hquiet⟩
  · have hi := h.length_act (.work i) ▸ (List.getElem?_eq_some_iff.1 hw).1
    obtain ⟨v, hv, hrests, -⟩ := Pool.rests_work (List.getElem?_eq_getElem hi)
    rw [act_of_ne (by simp)] at hw ⊢
    rw [Pool.step, hv] at hw
    exact Option.some.inj hw ▸ hrests
  · exact rests_of_not_woken (h.rests_of_asleep i w hbefore hnot) (act_settings _ e) hquiet

theorem step_act (h : Alert s requests effects) (e : Pool.Event) :
    Alert (s.after e (act s.pool e).1) (requests ++ e.made) (effects ++ (act s.pool e).2) where
  toFollows := h.toFollows.move (act_settings _ e) (act_move _ e)
  asked := h.asked_act e
  staged _ hc hrequest := h.staged_act e hc hrequest
  pending_of_asleep _ hc := h.pending_act e hc
  rests_of_asleep _ _ hw hasleep := h.rests_act e hw hasleep

/-! ### Steps of flushes -/

/-- A flush that changes its stage sleeps only if something is pending. -/
theorem step_update (h : Alert s requests effects) (c : Ticket) {f : Stage → Stage}
    (hf : ∀ stage, (c, stage) ∈ s.flushes → f stage = .asleep →
      stage = .asleep ∨ s.pool.pending ≠ 0) :
    Alert { s with flushes := s.update c f } requests effects where
  toFollows := h.toFollows
  asked x hx := by
    obtain ⟨stage, hmem, -⟩ := mem_flushes_of_mem_update hx
    exact h.asked (x.1, stage) hmem
  staged d hd hrequest := exists_mem_update (h.staged d hd hrequest) c f
  pending_of_asleep d hd := by
    obtain ⟨stage, hmem, hstage⟩ := mem_flushes_of_mem_update hd
    rcases hstage with rfl | ⟨rfl, hstage⟩
    · exact h.pending_of_asleep d hmem
    · rcases hf stage hmem hstage.symm with rfl | hpending
      · exact h.pending_of_asleep _ hmem
      · exact .inl hpending
  rests_of_asleep := h.rests_of_asleep

/-- Whoever hears the alarm does not sleep. -/
theorem step_alarm (h : Alert s requests effects) (alarms : Nat) :
    Alert { s with alarms, flushes := s.flushes.map fun f => (f.1, f.2.hear) } requests effects where
  toFollows := h.toFollows
  asked x hx := by
    obtain ⟨f, hf, rfl⟩ := List.mem_map.1 hx
    exact h.asked f hf
  staged d hd hrequest := by
    obtain ⟨stage, hmem⟩ := h.staged d hd hrequest
    exact ⟨stage.hear, List.mem_map_of_mem hmem⟩
  pending_of_asleep d hd := by
    obtain ⟨⟨c, stage⟩, -, heq⟩ := List.mem_map.1 hd
    obtain ⟨-, hhear⟩ := Prod.mk.inj heq
    cases stage <;> cases hhear
  rests_of_asleep := h.rests_of_asleep

/-- The poll of a flush touches nothing but the calls. -/
theorem poll_flush (h : Alert s requests effects) {c : Ticket} {stage : Stage}
    (hstage : (c, stage) ∈ s.flushes) (hpending : s.pool.pending = 0) :
    (s.pool.poll c).1.workers = s.pool.workers ∧ (s.pool.poll c).1.settings = s.pool.settings ∧
      (s.pool.poll c).1.isOpen = s.pool.isOpen ∧ (s.pool.poll c).1.now = s.pool.now ∧
      ∀ d ∈ (s.pool.poll c).1.waiting, d ∈ s.pool.waiting ∧ d.number ≠ c := by
  simp only [Pool.poll]
  cases hfind : s.pool.waitingCall? c with
  | none =>
    refine ⟨rfl, rfl, rfl, rfl, fun d hd => ⟨hd, fun hnumber => ?_⟩⟩
    have hmiss := List.find?_eq_none.1 hfind d hd
    simp [hnumber] at hmiss
  | some call =>
    obtain ⟨hcall, rfl⟩ := Pool.exists_of_waitingCall? hfind
    have hrequest : call.request = .flush :=
      Option.some.inj ((h.waiting_request call hcall).symm.trans (h.asked _ hstage))
    simp only [hrequest, hpending, if_true]
    refine ⟨rfl, rfl, rfl, rfl, fun d hd => ?_⟩
    simpa [Pool.unpark] using hd

/-- A flush that finds nothing pending returns. -/
theorem step_return (h : Alert s requests effects) {c : Ticket} {stage : Stage}
    (hstage : (c, stage) ∈ s.flushes) (hpending : s.pool.pending = 0) :
    Alert { s with
        pool := (s.pool.poll c).1
        flushes := s.flushes.filter fun f => f.1 != c }
      requests (effects ++ (s.pool.poll c).2) := by
  obtain ⟨hworkers, hsettings, hopen, hnow, hwaiting⟩ := h.poll_flush hstage hpending
  have hfollows := h.toFollows.step (.poll c)
  rw [show (Pool.Event.poll c).made = [] from rfl, List.append_nil] at hfollows
  refine ⟨hfollows, ?_, ?_, ?_, ?_⟩
  · exact fun f hf => h.asked f (List.mem_filter.1 hf).1
  · intro d hd hrequest
    obtain ⟨hmem, hne⟩ := hwaiting d hd
    obtain ⟨stage', hstage'⟩ := h.staged d hmem hrequest
    exact ⟨stage', List.mem_filter.2 ⟨hstage', by simpa using hne⟩⟩
  · intro d hd
    exact .inr ((h.pending_of_asleep d (List.mem_filter.1 hd).1).resolve_left
      fun hnot => hnot hpending)
  · intro i w hw hasleep
    rw [hworkers] at hw
    exact (h.rests_of_asleep i w hw hasleep).congr hsettings hopen hnow

/-! ### All events -/

/-- Every event keeps everybody alert. -/
theorem step (h : Alert s requests effects) (e : Event) :
    Alert (s.step e).1 (requests ++ e.made) (effects ++ (s.step e).2) := by
  cases e with
  | pool e =>
    simp only [WakingPool.step, Event.made]
    split
    · rename_i hasleep
      have hmade : e.made = [] := by
        cases e with
        | call request => cases hasleep
        | _ => rfl
      rwa [hmade, List.append_nil, List.append_nil]
    · exact h.step_act e
  | listen c =>
    simp only [WakingPool.step, Event.made, List.append_nil]
    refine h.step_update c fun stage _ hstage => .inl ?_
    cases stage with
    | arriving => cases hstage
    | _ => exact hstage
  | look c =>
    simp only [WakingPool.step, Event.made, List.append_nil]
    split
    · rename_i hreturns
      obtain ⟨alarmed, hstage⟩ := isListening_iff.1 hreturns.2
      exact h.step_return hstage hreturns.1
    · rename_i hstays
      rw [List.append_nil]
      refine h.step_update c fun stage hmem hstage => ?_
      cases stage with
      | arriving => cases hstage
      | listening alarmed =>
        exact .inr fun hpending => hstays ⟨hpending, isListening_iff.2 ⟨alarmed, hmem⟩⟩
      | asleep => exact .inl rfl
  | alarm =>
    simp only [WakingPool.step, Event.made, List.append_nil]
    split
    · rwa [List.append_nil]
    · rw [List.append_nil]
      exact h.step_alarm _
  | doze i =>
    simp only [WakingPool.step, Event.made, List.append_nil]
    exact ⟨h.toFollows, h.asked, h.staged, h.pending_of_asleep, h.rests_of_asleep⟩

/-- So does every run. -/
theorem run {earlier : List Request} (h : Alert s earlier effects) (events : List Event) :
    Alert (s.run events).1 (earlier ++ WakingPool.requests events)
      (effects ++ (s.run events).2) := by
  induction events generalizing s earlier effects with
  | nil => simpa [WakingPool.run, WakingPool.requests] using h
  | cons e rest ih =>
    simpa [WakingPool.run, WakingPool.requests, List.append_assoc] using ih (h.step e)

end Alert

theorem start_alert (settings : WriterSettings) (valid : settings.Valid) (tick now : Nat) :
    Alert (start settings valid tick now) [] [] where
  toFollows := Pool.start_follows settings valid tick now
  asked f hf := absurd hf List.not_mem_nil
  staged c hc := absurd hc List.not_mem_nil
  pending_of_asleep c hc := absurd hc List.not_mem_nil
  rests_of_asleep i w hw _ := by
    obtain rfl := List.eq_of_mem_replicate (List.mem_of_getElem? hw)
    exact Pool.rests_fresh _

theorem run_alert (settings : WriterSettings) (valid : settings.Valid) (tick now : Nat)
    (events : List Event) :
    Alert ((start settings valid tick now).run events).1 (WakingPool.requests events)
      ((start settings valid tick now).run events).2 := by
  simpa using (start_alert settings valid tick now).run events

/-! ## Flushes that are heard -/

/-- How many flushes an event drops. -/
def droppedBy (s : WakingPool) : Event → Nat
  | .pool e => s.pool.droppedBy e
  | _ => 0

/-- How many flushes are dropped in the course of a run. -/
def droppedIn (s : WakingPool) : List Event → Nat
  | [] => 0
  | e :: rest => s.droppedBy e + (s.step e).1.droppedIn rest

/-- The counter of flushes is those that wait and those that have been dropped. -/
theorem Alert.flushers_step (h : Alert s requests effects) {k : Nat}
    (hk : s.pool.flushers = s.pool.flushing + k) (e : Event) :
    (s.step e).1.pool.flushers = (s.step e).1.pool.flushing + (k + s.droppedBy e) := by
  cases e with
  | pool e =>
    simp only [WakingPool.step]
    split
    · rename_i hasleep
      have hnone : s.droppedBy (.pool e) = 0 := by
        cases e with
        | abandon n => cases hasleep
        | _ => rfl
      rwa [hnone]
    · exact (act_waits s.pool e).flushers_eq h.waiting_nodup hk
  | listen c => exact hk
  | look c =>
    simp only [WakingPool.step]
    split
    · exact (s.pool.poll_waits c).flushers_eq h.waiting_nodup hk
    · exact hk
  | alarm =>
    simp only [WakingPool.step]
    split <;> exact hk
  | doze i => exact hk

theorem Alert.flushers_run (h : Alert s requests effects) {k : Nat}
    (hk : s.pool.flushers = s.pool.flushing + k) (events : List Event) :
    (s.run events).1.pool.flushers = (s.run events).1.pool.flushing + (k + s.droppedIn events) := by
  induction events generalizing s requests effects k with
  | nil => exact hk
  | cons e rest ih =>
    rw [droppedIn, ← Nat.add_assoc k]
    exact ih (h.step e) (h.flushers_step hk e)

theorem run_flushers (settings : WriterSettings) (valid : settings.Valid) (tick now : Nat)
    (events : List Event) :
    let p := ((start settings valid tick now).run events).1.pool
    p.flushers = p.flushing + (start settings valid tick now).droppedIn events := by
  have hrun := (start_alert settings valid tick now).flushers_run (k := 0) rfl events
  rwa [Nat.zero_add] at hrun

/-- No flush has called the worker in its sleep. -/
def Undisturbed (s : WakingPool) (i : Nat) : Prop :=
  ∀ w, s.pool.workers[i]? = some w → i ∉ s.woken → s.pool.Uncalled w

namespace Alert

/-- A flush that calls a worker wakes it, unless the worker pauses. -/
theorem undisturbed_act (h : Alert s requests effects) {i : Nat} (hquiet : Undisturbed s i)
    {e : Pool.Event} (hpause : e = .call .flush → i ∉ s.pausing) :
    Undisturbed (s.after e (act s.pool e).1) i := by
  intro w hw hasleep
  rcases h.asleep_act e hw hasleep with rfl | ⟨hbefore, hnot, hnowake⟩
  · have hi := h.length_act (.work i) ▸ (List.getElem?_eq_some_iff.1 hw).1
    obtain ⟨v, hv, -, huncalled⟩ := Pool.rests_work (List.getElem?_eq_getElem hi)
    simp only [after, act_of_ne (e := .work i) (by simp), Pool.step] at hw ⊢
    rw [hv] at hw
    exact Option.some.inj hw ▸ huncalled
  · intro batch deadline hgathering
    by_cases he : e = .call .flush
    · -- the worker does not pause, so the flush has woken it
      simp [wakes, hgathering, he, hpause he] at hnowake
    · have hnone := hquiet w hbefore hnot batch deadline hgathering
      simp only [after, act_of_ne he]
      exact Nat.eq_zero_of_le_zero (hnone ▸ (s.pool.step_waits e).flushers_le he)

theorem undisturbed_step (h : Alert s requests effects) {i : Nat} (hquiet : Undisturbed s i)
    {e : Event} (hpause : e = .pool (.call .flush) → i ∉ s.pausing) :
    Undisturbed (s.step e).1 i := by
  cases e with
  | pool e =>
    simp only [WakingPool.step]
    split
    · exact hquiet
    · exact h.undisturbed_act hquiet fun he => hpause (congrArg Event.pool he)
  | listen c => exact hquiet
  | look c =>
    simp only [WakingPool.step]
    split
    · rename_i hreturns
      obtain ⟨alarmed, hstage⟩ := isListening_iff.1 hreturns.2
      intro w hw hasleep batch deadline hgathering
      simp only [(h.poll_flush hstage hreturns.1).1] at hw
      have hnone := hquiet w hw hasleep batch deadline hgathering
      have hle := (s.pool.poll_waits c).flushers_le (by simp)
      exact Nat.eq_zero_of_le_zero (hnone ▸ hle)
    · exact hquiet
  | alarm =>
    simp only [WakingPool.step]
    split <;> exact hquiet
  | doze j => exact hquiet

end Alert

/-- Whether no flush of a run is made while a worker pauses. -/
def Heard (s : WakingPool) : List Event → Prop
  | [] => True
  | e :: rest => (e = .pool (.call .flush) → s.pausing = []) ∧ Heard (s.step e).1 rest

instance decidableHeard : ∀ (s : WakingPool) (events : List Event), Decidable (Heard s events)
  | _, [] => isTrue trivial
  | s, e :: rest =>
    have := decidableHeard (s.step e).1 rest
    inferInstanceAs (Decidable ((e = .pool (.call .flush) → s.pausing = []) ∧ _))

/-- A waking pool in which every flush that waits is counted, and whose workers have heard of it. -/
structure Prompt (s : WakingPool) (requests : List Request) (effects : List Effect) : Prop extends
    Alert s requests effects where
  flushes_le : s.pool.flushing ≤ s.pool.flushers
  uncalled_of_asleep : ∀ (i : Nat) w, s.pool.workers[i]? = some w → i ∉ s.woken →
    s.pool.Uncalled w

namespace Prompt

theorem step (h : Prompt s requests effects) {e : Event}
    (hpause : e = .pool (.call .flush) → s.pausing = []) :
    Prompt (s.step e).1 (requests ++ e.made) (effects ++ (s.step e).2) where
  toAlert := h.toAlert.step e
  flushes_le := by
    have hcount := h.toAlert.flushers_step (Nat.add_sub_of_le h.flushes_le).symm e
    omega
  uncalled_of_asleep i := h.undisturbed_step (h.uncalled_of_asleep i) fun he => by simp [hpause he]

theorem run {earlier : List Request} {events : List Event} (h : Prompt s earlier effects)
    (hheard : Heard s events) :
    Prompt (s.run events).1 (earlier ++ WakingPool.requests events)
      (effects ++ (s.run events).2) := by
  induction events generalizing s earlier effects with
  | nil => simpa [WakingPool.run, WakingPool.requests] using h
  | cons e rest ih =>
    simpa [WakingPool.run, WakingPool.requests, List.append_assoc] using
      ih (h.step hheard.1) hheard.2

end Prompt

theorem run_prompt (settings : WriterSettings) (valid : settings.Valid) (tick now : Nat)
    {events : List Event} (hheard : Heard (start settings valid tick now) events) :
    Prompt ((start settings valid tick now).run events).1 (WakingPool.requests events)
      ((start settings valid tick now).run events).2 := by
  have hstart : Prompt (start settings valid tick now) [] [] := by
    refine ⟨start_alert settings valid tick now, Nat.le_refl _, fun i w hw _ batch deadline hw' => ?_⟩
    obtain rfl := List.eq_of_mem_replicate (List.mem_of_getElem? hw)
    cases hw'
  simpa using hstart.run hheard

/-! ## Answers -/

theorem runs : Pool.Runs step run := ⟨fun _ => rfl, fun _ _ _ => rfl⟩

/-- Every answer is given as by some event of the pool, but for the flushes that are made: those wait
in any case. -/
theorem step_answering {e : Event} {n : Ticket} {o : Outcome}
    (h : .answered n o ∈ (s.step e).2) :
    (∃ e' r, e' ≠ .call .flush ∧ e'.made = e.made ∧ Pool.Answering s.pool e' n r o) ∧
      (s.step e).2 = [.answered n o] := by
  cases e with
  | pool e =>
    simp only [step] at h ⊢
    split at h
    · cases h
    · rename_i hawake
      rw [if_neg hawake]
      by_cases he : e = .call .flush
      · subst he
        cases h
      · simp only [act_of_ne he] at h ⊢
        obtain ⟨⟨r, hanswering⟩, halone⟩ := Pool.step_answering h
        exact ⟨⟨e, r, he, rfl, hanswering⟩, halone⟩
  | listen c => cases h
  | look c =>
    simp only [step] at h ⊢
    split at h
    · rename_i hreturns
      rw [if_pos hreturns]
      obtain ⟨⟨r, hanswering⟩, halone⟩ := Pool.step_answering (e := .poll c) h
      exact ⟨⟨.poll c, r, by simp, rfl, hanswering⟩, halone⟩
    · cases h
  | alarm =>
    simp only [step] at h
    split at h <;> cases h
  | doze i => cases h

/-! ## Settled pools -/

/-- A worker that has been woken in a settled pool can do nothing. -/
theorem Settled.work_eq (h : s.Settled) {i : Nat} (hi : i ∈ s.woken) :
    (s.pool.work i).1 = s.pool := by
  have hawake : ¬ s.isAsleep (.work i) = true := by simpa [isAsleep] using hi
  have hstep := (h (.pool (.work i)) rfl).2.1
  rw [step, if_neg hawake, act_of_ne (by simp)] at hstep
  exact hstep

theorem Settled.uncalled (h : s.Settled) {i : Nat} {w : Worker} (hw : s.pool.workers[i]? = some w)
    (hquiet : Undisturbed s i) : s.pool.Uncalled w := by
  by_cases hwoken : i ∈ s.woken
  · obtain ⟨w', hw', -, huncalled⟩ := Pool.rests_work hw
    rw [h.work_eq hwoken] at hw' huncalled
    exact Option.some.inj (hw.symm.trans hw') ▸ huncalled
  · exact hquiet w hw hwoken

namespace Alert

theorem rests_of_settled (h : Alert s requests effects) (hsettled : s.Settled) {i : Nat} {w : Worker}
    (hw : s.pool.workers[i]? = some w) : s.pool.Rests w := by
  by_cases hwoken : i ∈ s.woken
  · obtain ⟨w', hw', hrests, -⟩ := Pool.rests_work hw
    rw [hsettled.work_eq hwoken] at hw' hrests
    exact Option.some.inj (hw.symm.trans hw') ▸ hrests
  · exact h.rests_of_asleep i w hw hwoken

/-- No flush waits in a settled pool with nothing pending. -/
theorem pending_of_settled (h : Alert s requests effects) (hsettled : s.Settled) {c : Call}
    (hc : c ∈ s.pool.waiting) (hrequest : c.request = .flush) : s.pool.pending ≠ 0 := by
  intro hpending
  obtain ⟨stage, hstage⟩ := h.staged c hc hrequest
  cases stage with
  | arriving =>
    obtain ⟨-, -, hflushes, -⟩ := hsettled (.listen c.number) rfl
    exact update_ne hstage (by simp [Stage.listen]) hflushes
  | listening alarmed =>
    have hlistens : s.isListening c.number = true := isListening_iff.2 ⟨alarmed, hstage⟩
    obtain ⟨hnone, -⟩ := hsettled (.look c.number) rfl
    simp [WakingPool.step, hpending, hlistens, Pool.poll, h.waitingCall?_eq hc, hrequest] at hnone
  | asleep =>
    have howed := (h.pending_of_asleep c.number hstage).resolve_left fun hnot => hnot hpending
    obtain ⟨-, -, -, halarms⟩ := hsettled .alarm rfl
    obtain ⟨n, hn⟩ := Nat.exists_eq_succ_of_ne_zero (Nat.ne_of_gt howed)
    simp [WakingPool.step, hn] at halarms

/-- A flush that waits in a settled pool waits for the backend, or for the time of a batch. -/
theorem waits_of_settled (h : Alert s requests effects) (hsettled : s.Settled) {c : Call}
    (hc : c ∈ s.pool.waiting) (hrequest : c.request = .flush) :
    ∃ w ∈ s.pool.workers, w.isWriting = true ∨
      ∃ batch deadline, w.activity = .gathering batch deadline ∧ s.pool.now < deadline := by
  obtain ⟨w, hw, hload⟩ : ∃ w ∈ s.pool.workers, w.load ≠ [] := by
    by_contra hnone
    refine h.pending_of_settled hsettled hc hrequest (h.pending_eq.trans ?_)
    exact Pool.inHands_eq_zero fun w hw => by_contra fun hload => hnone ⟨w, hw, hload⟩
  obtain ⟨i, hi⟩ := List.mem_iff_getElem?.1 hw
  refine ⟨w, hw, ?_⟩
  rcases h.rests_of_settled hsettled hi with hwriting | ⟨hqueue, hkeeps⟩
  · exact .inl hwriting
  · obtain ⟨queue, activity⟩ := w
    obtain rfl : queue = [] := hqueue
    cases activity with
    | idle => exact absurd rfl hload
    | gathering batch deadline => exact .inr ⟨batch, deadline, rfl, (hkeeps _ _ rfl).2.2⟩
    | writing batch turn => exact .inl rfl

end Alert

/-- If it has been heard, it waits for the backend. -/
theorem Prompt.writing_of_settled (h : Prompt s requests effects) (hsettled : s.Settled) {c : Call}
    (hc : c ∈ s.pool.waiting) (hrequest : c.request = .flush) :
    ∃ w ∈ s.pool.workers, w.isWriting = true := by
  obtain ⟨w, hmem, hwriting | ⟨batch, deadline, hgathering, -⟩⟩ :=
    h.waits_of_settled hsettled hc hrequest
  · exact ⟨w, hmem, hwriting⟩
  · obtain ⟨i, hw⟩ := List.mem_iff_getElem?.1 hmem
    have hnone := hsettled.uncalled hw (h.uncalled_of_asleep i) batch deadline hgathering
    exact absurd hrequest (Pool.no_flush_of_flushers h.flushes_le hnone c hc)

end WakingPool

end Historian
