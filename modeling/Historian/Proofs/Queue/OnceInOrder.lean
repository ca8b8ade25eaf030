import Historian.Proofs.Queue.History
import Historian.Proofs.Store.Writes

/-!
# Accepted samples reach the backend once and in order

* `Pool.Follows.handed_prefix` — per worker, what has been handed over is the beginning of what was
  accepted.
* `Pool.run_writesOnce` — after every run, all batches handed over hold accepted samples only, each
  once, those of a series in the order of their acceptance; nothing is left out once nothing is
  pending, and the store then holds what it would hold had the samples of the stored batches been
  written one by one in that order.
-/

set_option autoImplicit false

namespace Historian.Pool

/-- The samples handed over, in order. -/
def handedItems (effects : List Effect) : List Item := (handedOver effects).flatMap (·.2)

/-- The sample went to the backend in a batch, and the batch has come back. -/
def SeenThrough (effects : List Effect) (x : Item) : Prop :=
  ∃ (i : Nat) (batch : List Item) (stored : Bool),
    (i, batch) ∈ handedOver effects ∧ (i, batch, stored) ∈ returned effects ∧ x ∈ batch

/-- The samples of a batch that has come back, if it was stored. -/
def storedOf (x : List Item × Bool) : List Item := if x.2 then x.1 else []

/-- The samples of the batches stored, in order. -/
def storedItems (log : List (Nat × List Item × Bool)) : List Item :=
  log.flatMap fun x => storedOf x.2

/-! ## Logs whose batches go to the worker of their series -/

/-- Of a log whose samples go to the right workers, the samples of a worker are in its entries. -/
theorem filter_flatMap_of {α : Type} (items : α → List Item) {log : List (Nat × α)} {p : Pool}
    (h : ∀ x ∈ log, ∀ y ∈ items x.2, p.workerOf y.series = x.1) (i : Nat) :
    ((log.flatMap fun x => items x.2).filter fun y => p.workerOf y.series = i) =
      (ofWorker i log).flatMap items := by
  induction log with
  | nil => rfl
  | cons x rest ih =>
    have hrest := ih fun y hy => h y (List.mem_cons_of_mem _ hy)
    have hx := h x List.mem_cons_self
    rw [List.flatMap_cons, List.filter_append, hrest]
    by_cases hi : x.1 = i
    · have hown : ((items x.2).filter fun y => p.workerOf y.series = i) = items x.2 :=
        List.filter_eq_self.2 fun y hy => by simp [hx y hy, hi]
      simp [ofWorker, hi, hown]
    · have hnone : ((items x.2).filter fun y => p.workerOf y.series = i) = [] :=
        List.filter_eq_nil_iff.2 fun y hy => by simp [hx y hy, hi]
      simp [ofWorker, hi, hnone]

/-- The samples of a series are among those of its worker. -/
theorem filter_series_eq (p : Pool) (series : SeriesId) (xs : List Item) :
    (xs.filter fun x => x.series = series) =
      (xs.filter fun x => p.workerOf x.series = p.workerOf series).filter
        fun x => x.series = series := by
  rw [List.filter_filter]
  refine List.filter_congr fun x _ => ?_
  by_cases hx : x.series = series <;> simp [hx]

/-- Where no sample comes twice, one entry only holds it. -/
theorem stored_eq_of_mem {log : List (List Item × Bool)} (hnodup : (log.flatMap (·.1)).Nodup)
    {b b' : List Item × Bool} (hb : b ∈ log) (hb' : b' ∈ log) {x : Item} (hx : x ∈ b.1)
    (hx' : x ∈ b'.1) : b = b' := by
  induction log with
  | nil => simp at hb
  | cons e rest ih =>
    rw [List.flatMap_cons, List.nodup_append] at hnodup
    obtain ⟨-, hrest, hcross⟩ := hnodup
    have hlater : ∀ {c : List Item × Bool}, c ∈ rest → x ∈ c.1 → x ∈ rest.flatMap (·.1) :=
      fun hc hxc => List.mem_flatMap.2 ⟨_, hc, hxc⟩
    rcases List.mem_cons.1 hb with rfl | hlate <;> rcases List.mem_cons.1 hb' with rfl | hlate'
    · rfl
    · exact absurd rfl (hcross x hx x (hlater hlate' hx'))
    · exact absurd rfl (hcross x hx' x (hlater hlate hx))
    · exact ih hrest hlate hlate'

/-! ## What has been accepted -/

theorem answers?_of_accepts? {requests : List Request} {e : Effect} {x : Item}
    (h : Effect.accepts? requests e = some x) : e.answers? = some x.ticket := by
  cases e with
  | answered n o =>
    cases o <;> simp only [Effect.accepts?, reduceCtorEq] at h
    split at h
    · rw [← Option.some.inj h]
      rfl
    · cases h
  | handedOver => cases h
  | returned => cases h

theorem tickets_sublist (requests : List Request) (effects : List Effect) :
    ((accepted requests effects).map Item.ticket).Sublist (answered effects) := by
  induction effects with
  | nil => exact .slnil
  | cons e rest ih =>
    cases haccepts : Effect.accepts? requests e with
    | some x =>
      rw [accepted, answered, List.filterMap_cons_some haccepts,
        List.filterMap_cons_some (answers?_of_accepts? haccepts)]
      exact ih.cons_cons _
    | none =>
      rw [accepted, answered, List.filterMap_cons_none haccepts]
      cases hanswers : e.answers? with
      | some n =>
        rw [List.filterMap_cons_some hanswers]
        exact ih.cons _
      | none =>
        rw [List.filterMap_cons_none hanswers]
        exact ih

namespace Follows

variable {p : Pool} {requests : List Request} {effects : List Effect}

theorem tickets_nodup (h : Follows p requests effects) :
    ((accepted requests effects).map Item.ticket).Nodup :=
  h.answered_nodup.sublist (tickets_sublist requests effects)

theorem accepted_nodup (h : Follows p requests effects) : (accepted requests effects).Nodup :=
  List.Pairwise.of_map Item.ticket (fun _ _ hne he => hne (he ▸ rfl)) h.tickets_nodup

/-! ## What has been handed over -/

/-- Every batch handed over is the business of a worker. -/
theorem worker_of_handed (h : Follows p requests effects) {x : Nat × List Item}
    (hx : x ∈ handedOver effects) : ∃ w, p.workers[x.1]? = some w :=
  ⟨_, List.getElem?_eq_getElem (h.handed_lt x hx)⟩

/-- The samples handed over by a worker were accepted for it. -/
theorem mem_accepted_of_handed (h : Follows p requests effects) {x : Nat × List Item}
    (hx : x ∈ handedOver effects) {y : Item} (hy : y ∈ x.2) :
    y ∈ accepted requests effects ∧ p.workerOf y.series = x.1 := by
  obtain ⟨w, hw⟩ := h.worker_of_handed hx
  have hmem : y ∈ (ofWorker x.1 (handedOver effects)).flatten :=
    List.mem_flatten.2 ⟨x.2, mem_ofWorker.2 hx, hy⟩
  have hfilter := List.mem_append_left w.held hmem
  rw [← h.accepted_eq x.1 w hw, List.mem_filter] at hfilter
  exact ⟨hfilter.1, by simpa using hfilter.2⟩

theorem filter_handedItems (h : Follows p requests effects) (i : Nat) :
    ((handedItems effects).filter fun y => p.workerOf y.series = i) =
      (ofWorker i (handedOver effects)).flatten := by
  have hof := filter_flatMap_of id
    (fun x hx y hy => (h.mem_accepted_of_handed hx hy).2) i
  rwa [List.flatMap_id] at hof

/-- What a worker has handed over is the beginning of what was accepted for it. -/
theorem handed_prefix (h : Follows p requests effects) (i : Nat) :
    ((handedItems effects).filter fun y => p.workerOf y.series = i) <+:
      (accepted requests effects).filter fun y => p.workerOf y.series = i := by
  rw [h.filter_handedItems]
  cases hw : p.workers[i]? with
  | some w => exact ⟨w.held, (h.accepted_eq i w hw).symm⟩
  | none =>
    rw [ofWorker_eq_nil h.handed_lt (List.getElem?_eq_none_iff.1 hw)]
    exact List.nil_prefix

/-- No sample is handed over twice. -/
theorem handed_nodup (h : Follows p requests effects) : (handedItems effects).Nodup := by
  rw [List.nodup_iff_count]
  intro x
  have hsub := (h.handed_prefix (p.workerOf x.series)).sublist.count_le x
  rw [List.count_filter (by simp), List.count_filter (by simp)] at hsub
  exact Nat.le_trans hsub (List.nodup_iff_count.1 h.accepted_nodup x)

theorem mem_accepted (h : Follows p requests effects) {x : Item} (hx : x ∈ handedItems effects) :
    x ∈ accepted requests effects := by
  obtain ⟨y, hy, hx⟩ := List.mem_flatMap.1 hx
  exact (h.mem_accepted_of_handed hy hx).1

/-- The samples of a series are handed over in the order of their acceptance. -/
theorem handed_series_prefix (h : Follows p requests effects) (series : SeriesId) :
    ((handedItems effects).filter fun x => x.series = series) <+:
      (accepted requests effects).filter fun x => x.series = series := by
  rw [filter_series_eq p, filter_series_eq p series (accepted requests effects)]
  exact (h.handed_prefix (p.workerOf series)).filter _

/-! ## When nothing is pending -/

theorem load_eq_nil (h : Follows p requests effects) (hpending : p.pending = 0) {i : Nat}
    {w : Worker} (hw : p.workers[i]? = some w) : w.out.flatten = [] ∧ w.held = [] := by
  have := load_length_le hw
  have hload : w.load = [] := List.length_eq_zero_iff.1 (by rw [h.pending_eq] at hpending; omega)
  rwa [Worker.load_eq, List.append_eq_nil_iff] at hload

theorem workerOf_lt (h : Follows p requests effects) (series : SeriesId) :
    ∃ w, p.workers[p.workerOf series]? = some w := by
  have hlt : p.workerOf series < p.workers.length :=
    h.workers_length ▸ Nat.mod_lt _ p.valid.workers_pos
  exact ⟨_, List.getElem?_eq_getElem hlt⟩

/-- Then everything accepted for a worker has come back to it. -/
theorem accepted_eq_returned (h : Follows p requests effects) (hpending : p.pending = 0)
    (series : SeriesId) :
    ((accepted requests effects).filter fun x => p.workerOf x.series = p.workerOf series) =
      (ofWorker (p.workerOf series) (returned effects)).flatMap (·.1) := by
  obtain ⟨w, hw⟩ := h.workerOf_lt series
  obtain ⟨hout, hheld⟩ := h.load_eq_nil hpending hw
  rw [h.accepted_eq _ w hw, h.handed_eq _ w hw, hheld, List.append_nil, List.flatten_append, hout,
    List.append_nil]
  rfl

/-- What has come back was handed over before. -/
theorem handed_of_returned (h : Follows p requests effects) {x : Nat × List Item × Bool}
    (hx : x ∈ returned effects) : (x.1, x.2.1) ∈ handedOver effects := by
  have hw : p.workers[x.1]? = some _ := List.getElem?_eq_getElem (h.returned_lt x hx)
  refine mem_ofWorker.1 ?_
  rw [h.handed_eq x.1 _ hw]
  exact List.mem_append_left _ (List.mem_map_of_mem (mem_ofWorker.2 hx))

theorem seenThrough (h : Follows p requests effects) (hpending : p.pending = 0) {x : Item}
    (hx : x ∈ accepted requests effects) : SeenThrough effects x := by
  have hmem : x ∈ (accepted requests effects).filter
      fun y => p.workerOf y.series = p.workerOf x.series := List.mem_filter.2 ⟨hx, by simp⟩
  rw [h.accepted_eq_returned hpending] at hmem
  obtain ⟨⟨batch, stored⟩, hbatch, hx⟩ := List.mem_flatMap.1 hmem
  have hback := mem_ofWorker.1 hbatch
  exact ⟨_, batch, stored, h.handed_of_returned hback, hback, hx⟩

theorem mem_handed (h : Follows p requests effects) (hpending : p.pending = 0) {x : Item}
    (hx : x ∈ accepted requests effects) : x ∈ handedItems effects := by
  obtain ⟨i, batch, -, hbatch, -, hmem⟩ := h.seenThrough hpending hx
  exact List.mem_flatMap.2 ⟨_, hbatch, hmem⟩

/-! ## What the store holds then -/

/-- The samples that have come back to a worker were accepted for it. -/
theorem workerOf_of_returned (h : Follows p requests effects) {x : Nat × List Item × Bool}
    (hx : x ∈ returned effects) {y : Item} (hy : y ∈ x.2.1) : p.workerOf y.series = x.1 :=
  (h.mem_accepted_of_handed (h.handed_of_returned hx) hy).2

theorem mem_of_mem_storedOf {b : List Item × Bool} {y : Item} (hy : y ∈ storedOf b) :
    y ∈ b.1 ∧ b.2 = true := by
  rw [storedOf] at hy
  split at hy
  · exact ⟨hy, ‹_›⟩
  · simp at hy

/-- Of what has come back to a worker, the samples of stored batches are those stored at all. -/
theorem filter_returned (h : Follows p requests effects) (hpending : p.pending = 0)
    (series : SeriesId) :
    (((ofWorker (p.workerOf series) (returned effects)).flatMap (·.1)).filter
        fun x => x ∈ storedItems (returned effects)) =
      (ofWorker (p.workerOf series) (returned effects)).flatMap storedOf := by
  have hnodup : ((ofWorker (p.workerOf series) (returned effects)).flatMap (·.1)).Nodup :=
    h.accepted_eq_returned hpending series ▸ h.accepted_nodup.filter _
  rw [List.filter_flatMap, List.flatMap_def, List.flatMap_def]
  refine congrArg List.flatten (List.map_congr_left fun b hb => ?_)
  have hb' := mem_ofWorker.1 hb
  cases hstored : b.2 with
  | true =>
    rw [storedOf, hstored, if_pos rfl, List.filter_eq_self]
    intro x hx
    refine decide_eq_true (List.mem_flatMap.2 ⟨_, hb', ?_⟩)
    rwa [storedOf, hstored, if_pos rfl]
  | false =>
    rw [storedOf, hstored, if_neg (by simp), List.filter_eq_nil_iff]
    intro x hx hmem
    obtain ⟨⟨j, c⟩, hc, hxc⟩ := List.mem_flatMap.1 (of_decide_eq_true hmem)
    obtain ⟨hxc, hcstored⟩ := mem_of_mem_storedOf hxc
    -- the stored batch that holds the sample is a batch of the same worker, so it is this one
    obtain rfl : p.workerOf series = j :=
      (h.workerOf_of_returned hb' hx).symm.trans (h.workerOf_of_returned hc hxc)
    have := stored_eq_of_mem hnodup hb (mem_ofWorker.2 hc) hx hxc
    rw [this, hcstored] at hstored
    cases hstored

/-- However the backend has put the batches of different workers in order, it has stored the samples
of a series in the order of their acceptance. -/
theorem filter_storedItems (h : Follows p requests effects) (hpending : p.pending = 0)
    {log : List (Nat × List Item × Bool)}
    (hlog : ∀ i, ofWorker i log = ofWorker i (returned effects)) (series : SeriesId) :
    ((storedItems log).filter fun x => x.series = series) =
      ((accepted requests effects).filter fun x => x ∈ storedItems (returned effects)).filter
        fun x => x.series = series := by
  have hof : ∀ x ∈ log, ∀ y ∈ storedOf x.2, p.workerOf y.series = x.1 := by
    intro x hx y hy
    have hx' : x ∈ returned effects := mem_ofWorker.1 (hlog x.1 ▸ mem_ofWorker.2 hx)
    exact h.workerOf_of_returned hx' (mem_of_mem_storedOf hy).1
  have hswap :
      (((accepted requests effects).filter fun x => x ∈ storedItems (returned effects)).filter
        fun x => p.workerOf x.series = p.workerOf series) =
      ((accepted requests effects).filter fun x => p.workerOf x.series = p.workerOf series).filter
        fun x => x ∈ storedItems (returned effects) := by
    rw [List.filter_filter, List.filter_filter]
    exact List.filter_congr fun x _ => Bool.and_comm ..
  rw [filter_series_eq p, storedItems, filter_flatMap_of storedOf hof, hlog,
    filter_series_eq p series ((accepted requests effects).filter _), hswap,
    h.accepted_eq_returned hpending, h.filter_returned hpending]

end Follows

/-! ## Runs -/

/-- What a run writes, as its history tells: accepted samples, each once, in order. -/
structure WritesOnce (p : Pool) (requests : List Request) (effects : List Effect) : Prop where
  /-- No call has its sample accepted twice. -/
  tickets_nodup : ((accepted requests effects).map Item.ticket).Nodup
  /-- No sample is handed over twice. -/
  handed_nodup : (handedItems effects).Nodup
  /-- Only accepted samples are handed over. -/
  mem_accepted : ∀ x ∈ handedItems effects, x ∈ accepted requests effects
  /-- Those of a series are handed over in the order of their acceptance. -/
  in_order : ∀ series, ((handedItems effects).filter fun x => x.series = series) <+:
    (accepted requests effects).filter fun x => x.series = series
  /-- Once nothing is pending, all of them have been handed over. -/
  all_handed : p.pending = 0 → ∀ x ∈ accepted requests effects, x ∈ handedItems effects
  /-- In whatever order the backend took the batches of different workers, a store in memory then
  holds what writing the accepted samples of the stored batches one by one would leave. -/
  archive_eq : p.pending = 0 → ∀ log : List (Nat × List Item × Bool),
    (∀ i, ofWorker i log = ofWorker i (returned effects)) → ∀ m m' : Memory,
      m.Takes (log.map fun x => (x.2.1.map Item.entry, x.2.2)) m' →
        m'.archive = m.archive.putAll
          (((accepted requests effects).filter fun x =>
            x ∈ storedItems (returned effects)).map Item.entry)

theorem Follows.writesOnce {p : Pool} {requests : List Request} {effects : List Effect}
    (h : Follows p requests effects) : WritesOnce p requests effects where
  tickets_nodup := h.tickets_nodup
  handed_nodup := h.handed_nodup
  mem_accepted _ := h.mem_accepted
  in_order := h.handed_series_prefix
  all_handed hpending _ := h.mem_handed hpending
  archive_eq hpending log hlog m m' htakes := by
    have hentries : ((log.map fun x => (x.2.1.map Item.entry, x.2.2)).flatMap fun e =>
        if e.2 then e.1 else []) = (storedItems log).map Item.entry := by
      rw [storedItems, List.flatMap_map, List.map_flatMap, List.flatMap_def, List.flatMap_def]
      refine congrArg List.flatten (List.map_congr_left fun x _ => ?_)
      rw [storedOf]
      split <;> rfl
    have hfilter : ∀ (xs : List Item) (s : SeriesId),
        ((xs.map Item.entry).filter fun e => e.1 = s) =
          (xs.filter fun x => x.series = s).map Item.entry := fun xs s => List.filter_map
    rw [htakes.archive_eq, hentries]
    refine Archive.putAll_eq_of_filter_eq fun s => ?_
    rw [hfilter, hfilter, h.filter_storedItems hpending hlog s]

/-- Every run of a pool writes what it accepts once and in order. -/
theorem run_writesOnce (settings : WriterSettings) (valid : settings.Valid) (tick now : Nat)
    (events : List Event) :
    WritesOnce ((start settings valid tick now).run events).1 (requests events)
      ((start settings valid tick now).run events).2 :=
  (run_follows settings valid tick now events).writesOnce

/-- Two workers and three samples; the batch of one worker comes back unstored. -/
theorem run_writesOnce_two_workers :
    let settings : WriterSettings := ⟨2, 2, 100, 10, .block⟩
    let sample (t : Timestamp) : Sample := ⟨t, .flag true, none⟩
    let events : List Event := [.call (.save 1 (sample 5)), .call (.save 2 (sample 5)),
      .call (.save 1 (sample 4)), .work 1, .work 0, .advance 100, .work 0, .finish 1 true,
      .finish 0 false]
    ∃ valid : settings.Valid,
      let r := (start settings valid 5000 0).run events
      r.1.pending = 0 ∧ handedItems r.2 = [⟨0, 1, sample 5⟩, ⟨2, 1, sample 4⟩, ⟨1, 2, sample 5⟩] ∧
        WritesOnce r.1 (requests events) r.2 :=
  ⟨⟨by decide, by decide, by decide, by decide, by decide⟩, by decide, by decide,
    run_writesOnce _ _ _ _ _⟩

end Historian.Pool
