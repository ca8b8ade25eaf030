import Historian.Proofs.Queue.Steps

/-!
# The history of a pool

What has happened to a pool is told by the requests made to it and by the effects seen from outside.

* `Pool.CallsFollow` — every call has been answered at most once, and no answered call waits.
* `Pool.SamplesFollow` — of the samples accepted for a worker, in order, those that it has handed
  over come first and those that it still holds come after them.
* `Pool.Handling`, `Pool.CallsFollow.handling` — what one event does to the samples.
* `Pool.Follows` — both, and so many samples are pending as the workers have in their hands.
* `Pool.Follows.step`, `Pool.run_follows` — no event breaks this, so it holds after every run.
-/

set_option autoImplicit false

namespace Historian.Pool

/-! ## Reading a history -/

/-- The requests among some events, in order; the calls are numbered alike. -/
def requests (events : List Event) : List Request := events.flatMap Event.made

/-- The call that an effect answers. -/
def Effect.answers? : Effect → Option Ticket
  | .answered call _ => some call
  | _ => none

/-- The sample that an effect says is accepted. -/
def Effect.accepts? (requests : List Request) : Effect → Option Item
  | .answered call .queued =>
    match requests[call]? with
    | some (.save series sample) => some ⟨call, series, sample⟩
    | _ => none
  | _ => none

/-- The batch that an effect says is handed over, with its worker. -/
def Effect.hands? : Effect → Option (Nat × List Item)
  | .handedOver worker batch => some (worker, batch)
  | _ => none

/-- The batch that an effect says has come back, with its worker and whether it was stored. -/
def Effect.returns? : Effect → Option (Nat × List Item × Bool)
  | .returned worker batch stored => some (worker, batch, stored)
  | _ => none

/-- The calls answered, in order. -/
def answered (effects : List Effect) : List Ticket := effects.filterMap Effect.answers?

/-- The samples accepted, in order. -/
def accepted (requests : List Request) (effects : List Effect) : List Item :=
  effects.filterMap (Effect.accepts? requests)

/-- The batches handed over with their workers, in order. -/
def handedOver (effects : List Effect) : List (Nat × List Item) := effects.filterMap Effect.hands?

/-- The batches that have come back, in order. -/
def returned (effects : List Effect) : List (Nat × List Item × Bool) :=
  effects.filterMap Effect.returns?

/-- What a log says about worker `i`. -/
def ofWorker {α : Type} (i : Nat) (log : List (Nat × α)) : List α :=
  (log.filter fun x => x.1 = i).map (·.2)

theorem ofWorker_append {α : Type} (i : Nat) (xs ys : List (Nat × α)) :
    ofWorker i (xs ++ ys) = ofWorker i xs ++ ofWorker i ys := by
  simp [ofWorker]

theorem mem_ofWorker {α : Type} {i : Nat} {log : List (Nat × α)} {x : α} :
    x ∈ ofWorker i log ↔ (i, x) ∈ log := by
  simp [ofWorker]

theorem ofWorker_eq_nil {α : Type} {log : List (Nat × α)} {n i : Nat} (h : ∀ x ∈ log, x.1 < n)
    (hi : n ≤ i) : ofWorker i log = [] := by
  refine List.map_eq_nil_iff.2 (List.filter_eq_nil_iff.2 fun x hx hxi => ?_)
  have := h x hx
  have : x.1 = i := of_decide_eq_true hxi
  omega

theorem answered_append (xs ys : List Effect) : answered (xs ++ ys) = answered xs ++ answered ys :=
  List.filterMap_append

theorem accepted_append (requests : List Request) (xs ys : List Effect) :
    accepted requests (xs ++ ys) = accepted requests xs ++ accepted requests ys :=
  List.filterMap_append

theorem accepted_answered {requests : List Request} {n : Ticket} {o : Outcome} (ho : o ≠ .queued) :
    accepted requests [.answered n o] = [] := by
  cases o <;> simp [accepted, Effect.accepts?] at ho ⊢

theorem accepted_queued {requests : List Request} {n : Ticket} {series : SeriesId} {sample : Sample}
    (hrequest : requests[n]? = some (.save series sample)) :
    accepted requests [.answered n .queued] = [⟨n, series, sample⟩] := by
  simp [accepted, Effect.accepts?, hrequest]

theorem handedOver_append (xs ys : List Effect) :
    handedOver (xs ++ ys) = handedOver xs ++ handedOver ys :=
  List.filterMap_append

theorem returned_append (xs ys : List Effect) : returned (xs ++ ys) = returned xs ++ returned ys :=
  List.filterMap_append

/-! ## Calls -/

/-- The calls of a pool fit its history. -/
structure CallsFollow (p : Pool) (requests : List Request) (effects : List Effect) : Prop where
  calls_eq : p.calls = requests.length
  waiting_request : ∀ c ∈ p.waiting, requests[c.number]? = some c.request
  waiting_nodup : (p.waiting.map Call.number).Nodup
  answered_nodup : (answered effects).Nodup
  answered_lt : ∀ n ∈ answered effects, n < requests.length
  answered_not_waiting : ∀ n ∈ answered effects, n ∉ p.waiting.map Call.number

namespace CallsFollow

variable {p q : Pool} {made : List Request} {fx : List Effect} {requests : List Request}
  {effects : List Effect}

theorem waiting_lt (h : CallsFollow p requests effects) {n : Ticket}
    (hn : n ∈ p.waiting.map Call.number) : n < requests.length := by
  obtain ⟨c, hc, rfl⟩ := List.mem_map.1 hn
  exact (List.getElem?_eq_some_iff.1 (h.waiting_request c hc)).1

/-- Nothing is answered and the same calls wait, or fewer. -/
theorem of_sublist (h : CallsFollow p requests effects) (hcalls : q.calls = p.calls)
    (hwaiting : q.waiting.Sublist p.waiting) (hfx : answered fx = []) :
    CallsFollow q (requests ++ []) (effects ++ fx) := by
  rw [List.append_nil]
  constructor
  · rw [hcalls, h.calls_eq]
  · exact fun c hc => h.waiting_request c (hwaiting.subset hc)
  · exact h.waiting_nodup.sublist (hwaiting.map _)
  all_goals rw [answered_append, hfx, List.append_nil]
  · exact h.answered_nodup
  · exact h.answered_lt
  · exact fun n hn hw => h.answered_not_waiting n hn ((hwaiting.map _).subset hw)

/-- A new call waits. -/
theorem park (h : CallsFollow p requests effects) {r : Request} (hcalls : q.calls = p.calls + 1)
    (hwaiting : q.waiting = p.waiting ++ [⟨p.calls, r, p.now⟩]) :
    CallsFollow q (requests ++ [r]) (effects ++ []) := by
  have hlt : ∀ n ∈ p.waiting.map Call.number, n < p.calls := fun n hn => h.calls_eq ▸ h.waiting_lt hn
  rw [List.append_nil]
  constructor
  · rw [hcalls, h.calls_eq, List.length_append, List.length_singleton]
  · intro c hc
    rw [hwaiting, List.mem_append, List.mem_singleton] at hc
    rcases hc with hc | rfl
    · rw [List.getElem?_append_left (h.waiting_lt (List.mem_map_of_mem hc)), h.waiting_request c hc]
    · simp [h.calls_eq]
  · rw [hwaiting, List.map_append, List.nodup_append]
    refine ⟨h.waiting_nodup, by simp, fun m hm n hn => ?_⟩
    obtain rfl : n = p.calls := by simpa using hn
    exact Nat.ne_of_lt (hlt m hm)
  · exact h.answered_nodup
  · intro n hn
    rw [List.length_append]
    exact Nat.lt_succ_of_lt (h.answered_lt n hn)
  · intro n hn
    rw [hwaiting, List.map_append, List.mem_append, not_or]
    refine ⟨h.answered_not_waiting n hn, ?_⟩
    rw [List.map_singleton, List.mem_singleton, h.calls_eq]
    exact Nat.ne_of_lt (h.answered_lt n hn)

/-- A new call is answered. -/
theorem answer (h : CallsFollow p requests effects) {r : Request} (hcalls : q.calls = p.calls + 1)
    (hwaiting : q.waiting = p.waiting) (o : Outcome) :
    CallsFollow q (requests ++ [r]) (effects ++ [.answered p.calls o]) := by
  have hanswered : answered (effects ++ [.answered p.calls o]) = answered effects ++ [p.calls] :=
    answered_append ..
  constructor
  · rw [hcalls, h.calls_eq, List.length_append, List.length_singleton]
  · intro c hc
    rw [hwaiting] at hc
    rw [List.getElem?_append_left (h.waiting_lt (List.mem_map_of_mem hc)), h.waiting_request c hc]
  · exact hwaiting ▸ h.waiting_nodup
  all_goals rw [hanswered]
  · rw [List.nodup_append]
    refine ⟨h.answered_nodup, by simp, fun m hm n hn => ?_⟩
    rw [List.mem_singleton.1 hn, h.calls_eq]
    exact Nat.ne_of_lt (h.answered_lt m hm)
  · intro n hn
    rw [List.length_append, List.length_singleton]
    rcases List.mem_append.1 hn with hn | hn
    · exact Nat.lt_succ_of_lt (h.answered_lt n hn)
    · rw [List.mem_singleton.1 hn, h.calls_eq]
      exact Nat.lt_succ_self _
  · intro n hn hw
    rw [hwaiting] at hw
    rcases List.mem_append.1 hn with hn | hn
    · exact h.answered_not_waiting n hn hw
    · refine Nat.ne_of_lt (h.waiting_lt hw) ?_
      rw [List.mem_singleton.1 hn, h.calls_eq]

/-- A waiting call is answered and waits no longer. -/
theorem settle (h : CallsFollow p requests effects) {c : Call} (hc : c ∈ p.waiting)
    (hcalls : q.calls = p.calls)
    (hwaiting : q.waiting = p.waiting.filter fun d => d.number != c.number) (o : Outcome) :
    CallsFollow q (requests ++ []) (effects ++ [.answered c.number o]) := by
  have hanswered : answered (effects ++ [.answered c.number o]) = answered effects ++ [c.number] :=
    answered_append ..
  have hnumber : c.number ∈ p.waiting.map Call.number := List.mem_map_of_mem hc
  have hsub : q.waiting.Sublist p.waiting := hwaiting ▸ List.filter_sublist
  rw [List.append_nil]
  constructor
  · rw [hcalls, h.calls_eq]
  · exact fun d hd => h.waiting_request d (hsub.subset hd)
  · exact h.waiting_nodup.sublist (hsub.map _)
  all_goals rw [hanswered]
  · rw [List.nodup_append]
    refine ⟨h.answered_nodup, by simp, fun m hm n hn he => ?_⟩
    obtain rfl := List.mem_singleton.1 hn
    exact h.answered_not_waiting m hm (he ▸ hnumber)
  · intro n hn
    rcases List.mem_append.1 hn with hn | hn
    · exact h.answered_lt n hn
    · exact List.mem_singleton.1 hn ▸ h.waiting_lt hnumber
  · intro n hn hw
    rcases List.mem_append.1 hn with hn | hn
    · exact h.answered_not_waiting n hn ((hsub.map _).subset hw)
    · obtain ⟨d, hd, he⟩ := List.mem_map.1 hw
      rw [hwaiting, List.mem_filter] at hd
      simp [he, List.mem_singleton.1 hn] at hd

/-- Every move keeps the calls in step with the history. -/
theorem move (h : CallsFollow p requests effects) (hmove : Move p q made fx) :
    CallsFollow q (requests ++ made) (effects ++ fx) := by
  cases hmove with
  | quiet hcalls hwaiting => exact h.of_sublist hcalls (hwaiting ▸ .refl _) rfl
  | park r hcalls hwaiting => exact h.park hcalls hwaiting
  | answer r o _ hcalls hwaiting => exact h.answer hcalls hwaiting o
  | accept series sample hcalls hwaiting => exact h.answer hcalls hwaiting .queued
  | leave c _ hcalls hwaiting => exact h.of_sublist hcalls (hwaiting ▸ List.filter_sublist) rfl
  | settle c hc o _ hcalls hwaiting => exact h.settle hc hcalls hwaiting o
  | acceptWaiting c hc _ _ _ hcalls hwaiting => exact h.settle hc hcalls hwaiting .queued
  | gather _ _ _ _ _ _ _ hcalls hwaiting => exact h.of_sublist hcalls (hwaiting ▸ .refl _) rfl
  | handOver _ _ _ _ _ _ _ _ hcalls hwaiting => exact h.of_sublist hcalls (hwaiting ▸ .refl _) rfl
  | takeBack _ _ _ _ _ _ _ _ _ hcalls hwaiting =>
    exact h.of_sublist hcalls (hwaiting ▸ .refl _) rfl

/-- What earlier answers accepted stays accepted, whatever is requested later. -/
theorem accepted_append (h : CallsFollow p requests effects) (made : List Request)
    (fx : List Effect) :
    accepted (requests ++ made) (effects ++ fx) =
      accepted requests effects ++ accepted (requests ++ made) fx := by
  have hkept : ∀ {es : List Effect}, (∀ n ∈ answered es, n < requests.length) →
      accepted (requests ++ made) es = accepted requests es := by
    intro es
    induction es with
    | nil => exact fun _ => rfl
    | cons e rest ih =>
      intro hlt
      have he : Effect.accepts? (requests ++ made) e = Effect.accepts? requests e := by
        cases e with
        | answered n o =>
          have hn : n < requests.length := hlt n (List.mem_filterMap.2 ⟨_, List.mem_cons_self, rfl⟩)
          cases o <;> simp [Effect.accepts?, List.getElem?_append_left hn]
        | handedOver => rfl
        | returned => rfl
      have hrest := ih fun n hn => hlt n (by
        obtain ⟨e', he', hn⟩ := List.mem_filterMap.1 hn
        exact List.mem_filterMap.2 ⟨e', List.mem_cons_of_mem _ he', hn⟩)
      rw [accepted, accepted] at hrest ⊢
      rw [List.filterMap_cons, List.filterMap_cons, he, hrest]
  rw [Pool.accepted_append, hkept h.answered_lt]

end CallsFollow

/-! ## Samples -/

/-- What one event does to the samples of a pool: `taken` are those that it accepts. -/
inductive Handling (p q : Pool) : (taken : List Item) → List Effect → Prop
  | quiet (hworkers : q.workers = p.workers) (hpending : q.pending = p.pending) : Handling p q [] []
  | refuse (n : Ticket) (o : Outcome) (ho : o ≠ .queued) (hworkers : q.workers = p.workers)
      (hpending : q.pending = p.pending) : Handling p q [] [.answered n o]
  | take (x : Item)
      (hworkers : q.workers = p.workers.modify (p.workerOf x.series) (Worker.enqueue x))
      (hpending : q.pending = p.pending + 1) : Handling p q [x] [.answered x.ticket .queued]
  | gather (i : Nat) (w w' : Worker) (hw : p.workers[i]? = some w) (hout : w.out = [])
      (hout' : w'.out = []) (hheld : w'.held = w.held) (hworkers : q.workers = p.workers.set i w')
      (hpending : q.pending = p.pending) : Handling p q [] []
  | handOver (i : Nat) (w w' : Worker) (batch : List Item) (hw : p.workers[i]? = some w)
      (hout : w.out = []) (hout' : w'.out = [batch]) (hheld : w.held = batch ++ w'.held)
      (hworkers : q.workers = p.workers.set i w') (hpending : q.pending = p.pending) :
      Handling p q [] [.handedOver i batch]
  | takeBack (i : Nat) (w w' : Worker) (batch : List Item) (stored : Bool)
      (hw : p.workers[i]? = some w) (hout : w.out = [batch]) (hout' : w'.out = [])
      (hheld : w'.held = w.held) (hworkers : q.workers = p.workers.set i w')
      (hpending : q.pending = p.pending - batch.length) : Handling p q [] [.returned i batch stored]

/-- Every move handles samples in one of these ways. -/
theorem CallsFollow.handling {p q : Pool} {made : List Request} {fx : List Effect}
    {requests : List Request} {effects : List Effect} (h : CallsFollow p requests effects)
    (hmove : Move p q made fx) :
    ∃ taken, accepted (requests ++ made) fx = taken ∧ Handling p q taken fx := by
  cases hmove with
  | quiet _ _ hworkers hpending => exact ⟨[], rfl, .quiet hworkers hpending⟩
  | park _ _ _ hworkers hpending => exact ⟨[], rfl, .quiet hworkers hpending⟩
  | answer _ o ho _ _ hworkers hpending =>
    exact ⟨[], accepted_answered ho, .refuse _ o ho hworkers hpending⟩
  | accept series sample _ _ hworkers hpending =>
    refine ⟨_, accepted_queued ?_, .take ⟨p.calls, series, sample⟩ hworkers hpending⟩
    simp [h.calls_eq]
  | leave _ _ _ _ hworkers hpending => exact ⟨[], rfl, .quiet hworkers hpending⟩
  | settle _ _ o ho _ _ hworkers hpending =>
    exact ⟨[], accepted_answered ho, .refuse _ o ho hworkers hpending⟩
  | acceptWaiting c hc series sample hrequest _ _ hworkers hpending =>
    refine ⟨_, accepted_queued ?_, .take ⟨c.number, series, sample⟩ hworkers hpending⟩
    rw [List.append_nil, h.waiting_request c hc, hrequest]
  | gather i w w' hw hout hout' hheld _ _ hworkers hpending =>
    exact ⟨[], rfl, .gather i w w' hw hout hout' hheld hworkers hpending⟩
  | handOver i w w' batch hw hout hout' hheld _ _ hworkers hpending =>
    exact ⟨[], rfl, .handOver i w w' batch hw hout hout' hheld hworkers hpending⟩
  | takeBack i w w' batch stored hw hout hout' hheld _ _ hworkers hpending =>
    exact ⟨[], rfl, .takeBack i w w' batch stored hw hout hout' hheld hworkers hpending⟩

/-- The samples accepted by a pool are where its history says. -/
structure SamplesFollow (p : Pool) (requests : List Request) (effects : List Effect) : Prop where
  workers_length : p.workers.length = p.settings.workers
  handed_lt : ∀ x ∈ handedOver effects, x.1 < p.workers.length
  returned_lt : ∀ x ∈ returned effects, x.1 < p.workers.length
  /-- What was accepted for a worker is what it has handed over and then what it holds. -/
  accepted_eq : ∀ (i : Nat) w, p.workers[i]? = some w →
    ((accepted requests effects).filter fun x => p.workerOf x.series = i) =
      (ofWorker i (handedOver effects)).flatten ++ w.held
  /-- What a worker has handed over has come back, but for the batch it waits for. -/
  handed_eq : ∀ (i : Nat) w, p.workers[i]? = some w →
    ofWorker i (handedOver effects) = (ofWorker i (returned effects)).map (·.1) ++ w.out

namespace SamplesFollow

variable {p q : Pool} {made : List Request} {fx : List Effect} {requests : List Request}
  {effects : List Effect}

theorem workerOf_eq (hsettings : q.settings = p.settings) : q.workerOf = p.workerOf :=
  funext fun _ => by rw [workerOf, workerOf, hsettings]

/-- No worker does anything. -/
theorem keep (h : SamplesFollow p requests effects) (hcalls : CallsFollow p requests effects)
    (hsettings : q.settings = p.settings) (hworkers : q.workers = p.workers)
    (haccepted : accepted (requests ++ made) fx = []) (hhanded : handedOver fx = [])
    (hreturned : returned fx = []) : SamplesFollow q (requests ++ made) (effects ++ fx) := by
  constructor
  · rw [hworkers, hsettings, h.workers_length]
  · rw [handedOver_append, hhanded, List.append_nil, hworkers]
    exact h.handed_lt
  · rw [returned_append, hreturned, List.append_nil, hworkers]
    exact h.returned_lt
  · intro i w hw
    rw [hcalls.accepted_append, haccepted, handedOver_append, hhanded, workerOf_eq hsettings,
      List.append_nil, List.append_nil]
    exact h.accepted_eq i w (hworkers ▸ hw)
  · intro i w hw
    rw [handedOver_append, hhanded, returned_append, hreturned, List.append_nil, List.append_nil]
    exact h.handed_eq i w (hworkers ▸ hw)

/-- A sample is accepted and joins the queue of its worker. -/
theorem enqueue (h : SamplesFollow p requests effects) (hcalls : CallsFollow p requests effects)
    (hsettings : q.settings = p.settings) {x : Item}
    (hworkers : q.workers = p.workers.modify (p.workerOf x.series) (Worker.enqueue x))
    (haccepted : accepted (requests ++ made) fx = [x]) (hhanded : handedOver fx = [])
    (hreturned : returned fx = []) : SamplesFollow q (requests ++ made) (effects ++ fx) := by
  have hof := workerOf_eq hsettings
  constructor
  · rw [hworkers, List.length_modify, hsettings, h.workers_length]
  · rw [handedOver_append, hhanded, List.append_nil, hworkers, List.length_modify]
    exact h.handed_lt
  · rw [returned_append, hreturned, List.append_nil, hworkers, List.length_modify]
    exact h.returned_lt
  · intro i w hw
    rw [hcalls.accepted_append, haccepted, handedOver_append, hhanded, hof, List.append_nil,
      List.filter_append]
    rw [hworkers, List.getElem?_modify] at hw
    obtain ⟨w₀, hw₀, rfl⟩ := Option.map_eq_some_iff.1 hw
    rw [h.accepted_eq i w₀ hw₀]
    by_cases hi : p.workerOf x.series = i
    · simp [hi]
    · simp [hi]
  · intro i w hw
    rw [handedOver_append, hhanded, returned_append, hreturned, List.append_nil, List.append_nil]
    rw [hworkers, List.getElem?_modify] at hw
    obtain ⟨w₀, hw₀, rfl⟩ := Option.map_eq_some_iff.1 hw
    rw [h.handed_eq i w₀ hw₀]
    split <;> rfl

/-- One worker goes on: what it hands over it has held, and what comes back it has waited for. -/
theorem replace (h : SamplesFollow p requests effects) (hcalls : CallsFollow p requests effects)
    (hsettings : q.settings = p.settings) {i : Nat} {w w' : Worker}
    (hw : p.workers[i]? = some w) (hworkers : q.workers = p.workers.set i w')
    (haccepted : accepted (requests ++ made) fx = [])
    (hhanded : ∀ x ∈ handedOver fx, x.1 = i) (hreturned : ∀ x ∈ returned fx, x.1 = i)
    (hheld : w.held = (ofWorker i (handedOver fx)).flatten ++ w'.held)
    (hout : w.out ++ ofWorker i (handedOver fx) = (ofWorker i (returned fx)).map (·.1) ++ w'.out) :
    SamplesFollow q (requests ++ made) (effects ++ fx) := by
  have hof := workerOf_eq hsettings
  have hlt : i < p.workers.length := (List.getElem?_eq_some_iff.1 hw).1
  have hothers : ∀ {α : Type} {log : List (Nat × α)} {j : Nat}, (∀ x ∈ log, x.1 = i) → i ≠ j →
      ofWorker j log = [] := by
    intro α log j hlog hij
    rw [ofWorker, List.map_eq_nil_iff, List.filter_eq_nil_iff]
    intro x hx
    simpa [hlog x hx] using hij
  constructor
  · rw [hworkers, List.length_set, hsettings, h.workers_length]
  · intro x hx
    rw [hworkers, List.length_set]
    rw [handedOver_append, List.mem_append] at hx
    rcases hx with hx | hx
    · exact h.handed_lt x hx
    · exact (hhanded x hx).symm ▸ hlt
  · intro x hx
    rw [hworkers, List.length_set]
    rw [returned_append, List.mem_append] at hx
    rcases hx with hx | hx
    · exact h.returned_lt x hx
    · exact (hreturned x hx).symm ▸ hlt
  · intro j v hv
    rw [hcalls.accepted_append, haccepted, List.append_nil, hof, handedOver_append, ofWorker_append,
      List.flatten_append]
    by_cases hij : i = j
    · subst hij
      rw [hworkers, List.getElem?_set_self hlt] at hv
      obtain rfl := Option.some.inj hv
      rw [h.accepted_eq i w hw, hheld, List.append_assoc]
    · rw [hworkers, List.getElem?_set_ne hij] at hv
      rw [h.accepted_eq j v hv, hothers hhanded hij]
      simp
  · intro j v hv
    rw [handedOver_append, ofWorker_append, returned_append, ofWorker_append, List.map_append]
    by_cases hij : i = j
    · subst hij
      rw [hworkers, List.getElem?_set_self hlt] at hv
      obtain rfl := Option.some.inj hv
      rw [h.handed_eq i w hw, List.append_assoc, List.append_assoc, hout]
    · rw [hworkers, List.getElem?_set_ne hij] at hv
      rw [h.handed_eq j v hv, hothers hhanded hij, hothers hreturned hij]
      simp

/-- Every move keeps the samples where the history says. -/
theorem move (h : SamplesFollow p requests effects) (hcalls : CallsFollow p requests effects)
    (hsettings : q.settings = p.settings) (hmove : Move p q made fx) :
    SamplesFollow q (requests ++ made) (effects ++ fx) := by
  obtain ⟨taken, htaken, hhandling⟩ := hcalls.handling hmove
  cases hhandling with
  | quiet hworkers => exact h.keep hcalls hsettings hworkers htaken rfl rfl
  | refuse _ _ _ hworkers => exact h.keep hcalls hsettings hworkers htaken rfl rfl
  | take x hworkers => exact h.enqueue hcalls hsettings hworkers htaken rfl rfl
  | gather i w w' hw hout hout' hheld hworkers =>
    refine h.replace hcalls hsettings hw hworkers htaken (by simp [handedOver]) (by simp [returned])
      ?_ ?_
    · rw [hheld]; rfl
    · rw [hout, hout']; rfl
  | handOver i w w' batch hw hout hout' hheld hworkers =>
    refine h.replace hcalls hsettings hw hworkers htaken (by simp [handedOver, Effect.hands?])
      (by simp [returned, Effect.returns?]) ?_ ?_
    · rw [hheld]; simp [handedOver, Effect.hands?, ofWorker]
    · rw [hout, hout']; simp [handedOver, returned, Effect.hands?, Effect.returns?, ofWorker]
  | takeBack i w w' batch stored hw hout hout' hheld hworkers =>
    refine h.replace hcalls hsettings hw hworkers htaken (by simp [handedOver, Effect.hands?])
      (by simp [returned, Effect.returns?]) ?_ ?_
    · rw [hheld]; simp [handedOver, Effect.hands?, ofWorker]
    · rw [hout, hout']; simp [handedOver, returned, Effect.hands?, Effect.returns?, ofWorker]

end SamplesFollow

/-! ## The samples pending -/

/-- How many samples the workers have in their hands or at the backend. -/
def inHands : List Worker → Nat
  | [] => 0
  | w :: rest => w.load.length + inHands rest

theorem inHands_set {workers : List Worker} {i : Nat} {w : Worker} (hw : workers[i]? = some w)
    (w' : Worker) :
    inHands (workers.set i w') + w.load.length = inHands workers + w'.load.length := by
  induction workers generalizing i with
  | nil => simp at hw
  | cons v rest ih =>
    cases i with
    | zero =>
      obtain rfl : v = w := by simpa using hw
      simp only [inHands, List.set_cons_zero]
      omega
    | succ i =>
      have := ih (by simpa using hw)
      simp only [inHands, List.set_cons_succ]
      omega

/-- The worker that takes a sample is replaced, and no other. -/
theorem modify_enqueue {workers : List Worker} {i : Nat} (hi : i < workers.length) (x : Item) :
    workers.modify i (Worker.enqueue x) = workers.set i (workers[i].enqueue x) := by
  refine List.ext_getElem? fun j => ?_
  rw [List.getElem?_modify, List.getElem?_set]
  by_cases hij : i = j
  · subst hij
    simp [hi]
  · simp [hij]

theorem inHands_modify {workers : List Worker} {i : Nat} (hi : i < workers.length) (x : Item) :
    inHands (workers.modify i (Worker.enqueue x)) = inHands workers + 1 := by
  have hw : workers[i]? = some workers[i] := List.getElem?_eq_getElem hi
  have hload : (workers[i].enqueue x).load.length = workers[i].load.length + 1 := by
    simp [Worker.load_eq, Nat.add_assoc]
  have := inHands_set hw (workers[i].enqueue x)
  rw [modify_enqueue hi]
  omega

theorem load_length_le {workers : List Worker} {i : Nat} {w : Worker} (hw : workers[i]? = some w) :
    w.load.length ≤ inHands workers := by
  have := inHands_set hw .fresh
  have hfresh : Worker.fresh.load.length = 0 := rfl
  omega

theorem inHands_fresh (n : Nat) : inHands (List.replicate n .fresh) = 0 := by
  induction n with
  | zero => rfl
  | succ n ih =>
    rw [List.replicate_succ, inHands, ih]
    rfl

/-- However samples are handled, so many are pending as the workers have in their hands. -/
theorem Handling.pending_eq {p q : Pool} {taken : List Item} {fx : List Effect}
    (h : Handling p q taken fx) (hlength : p.workers.length = p.settings.workers)
    (hpending : p.pending = inHands p.workers) : q.pending = inHands q.workers := by
  cases h with
  | quiet hworkers hkept => rw [hkept, hworkers, hpending]
  | refuse _ _ _ hworkers hkept => rw [hkept, hworkers, hpending]
  | take x hworkers hmore =>
    have hof : p.workerOf x.series < p.workers.length :=
      hlength ▸ Nat.mod_lt _ p.valid.workers_pos
    rw [hmore, hworkers, inHands_modify hof, hpending]
  | gather i w w' hw hout hout' hheld hworkers hkept =>
    have := inHands_set hw w'
    rw [Worker.load_eq, Worker.load_eq, hout, hout', hheld] at this
    rw [hkept, hworkers]
    omega
  | handOver i w w' batch hw hout hout' hheld hworkers hkept =>
    have := inHands_set hw w'
    have hload : w'.load = w.load := by simp [Worker.load_eq, hout, hout', hheld]
    rw [hload] at this
    rw [hkept, hworkers]
    omega
  | takeBack i w w' batch stored hw hout hout' hheld hworkers hless =>
    have := inHands_set hw w'
    have hload : w.load.length = batch.length + w'.load.length := by
      simp [Worker.load_eq, hout, hout', hheld]
    have := load_length_le hw
    rw [hless, hworkers]
    omega

/-! ## Runs -/

/-- The state of a pool fits its history. -/
structure Follows (p : Pool) (requests : List Request) (effects : List Effect) : Prop extends
    CallsFollow p requests effects, SamplesFollow p requests effects where
  pending_eq : p.pending = inHands p.workers

/-- Every move keeps the state in step with the history. -/
theorem Follows.move {p q : Pool} {made : List Request} {fx : List Effect} {requests : List Request}
    {effects : List Effect} (h : Follows p requests effects) (hsettings : q.settings = p.settings)
    (hmove : Move p q made fx) : Follows q (requests ++ made) (effects ++ fx) where
  toCallsFollow := h.toCallsFollow.move hmove
  toSamplesFollow := h.toSamplesFollow.move h.toCallsFollow hsettings hmove
  pending_eq :=
    let ⟨_, _, hhandling⟩ := h.handling hmove
    hhandling.pending_eq h.workers_length h.pending_eq

/-- So does every event. -/
theorem Follows.step {p : Pool} {requests : List Request} {effects : List Effect}
    (h : Follows p requests effects) (e : Event) :
    Follows (p.step e).1 (requests ++ e.made) (effects ++ (p.step e).2) :=
  h.move (step_settings p e) (step_move p e)

/-- So does every run. -/
theorem Follows.run {p : Pool} {earlier : List Request} {effects : List Effect}
    (h : Follows p earlier effects) (events : List Event) :
    Follows (p.run events).1 (earlier ++ requests events) (effects ++ (p.run events).2) := by
  induction events generalizing p earlier effects with
  | nil => simpa [Pool.run, requests] using h
  | cons e rest ih => simpa [Pool.run, requests, List.append_assoc] using ih (h.step e)

/-- A pool at rest has no history. -/
theorem start_follows (settings : WriterSettings) (valid : settings.Valid) (tick now : Nat) :
    Follows (start settings valid tick now) [] [] where
  calls_eq := rfl
  waiting_request := by simp [start]
  waiting_nodup := by simp [start]
  answered_nodup := by simp [answered]
  answered_lt := by simp [answered]
  answered_not_waiting := by simp [answered]
  workers_length := by simp [start]
  handed_lt := by simp [handedOver]
  returned_lt := by simp [returned]
  accepted_eq i w hw := by
    obtain rfl := List.eq_of_mem_replicate (List.mem_of_getElem? hw)
    rfl
  handed_eq i w hw := by
    obtain rfl := List.eq_of_mem_replicate (List.mem_of_getElem? hw)
    rfl
  pending_eq := (inHands_fresh settings.workers).symm

theorem run_follows (settings : WriterSettings) (valid : settings.Valid) (tick now : Nat)
    (events : List Event) :
    Follows ((start settings valid tick now).run events).1 (requests events)
      ((start settings valid tick now).run events).2 := by
  simpa using (start_follows settings valid tick now).run events

end Historian.Pool
