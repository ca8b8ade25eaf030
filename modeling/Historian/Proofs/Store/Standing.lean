import Historian.Proofs.Store.Ledger

/-!
# What stands

A sample stands in a store until its place is written over or taken out.

* `Memory.Spares` — none of some changes, made one after the other, touches a place.
* `Memory.held_applyAll` — such changes leave what is held there.
* `Memory.mem_scan` — a scan finds what is held.
* `Memory.mem_scan_of_batch` — so a scan finds what a batch has stored, as long as its place is spared.
-/

set_option autoImplicit false

namespace Historian

namespace Ledger

variable {l : Ledger} {p : Place}

theorem held_put (l : Ledger) (series : SeriesId) (v : Sample) (p : Place) :
    (l.put series v).held p =
      if p = (series, v.time) then some ⟨v.payload, v.note⟩ else l.held p :=
  Function.update_apply ..

/-- Samples of other places leave what is held. -/
theorem held_putAll_of_ne {batch : List (SeriesId × Sample)}
    (h : ∀ e ∈ batch, (e.1, e.2.time) ≠ p) : (l.putAll batch).held p = l.held p := by
  induction batch generalizing l with
  | nil => rfl
  | cons e rest ih =>
    refine (ih fun e' he' => h e' (List.mem_cons_of_mem _ he')).trans ?_
    rw [held_put, if_neg (Ne.symm (h e List.mem_cons_self))]

/-- The last sample of a place is the one that is held. -/
theorem held_putAll_of_last {series : SeriesId} {v : Sample} {first rest : List (SeriesId × Sample)}
    (h : ∀ e ∈ rest, (e.1, e.2.time) ≠ (series, v.time)) :
    (l.putAll (first ++ (series, v) :: rest)).held (series, v.time) =
      some ⟨v.payload, v.note⟩ := by
  have hsplit : l.putAll (first ++ (series, v) :: rest) =
      ((l.putAll first).put series v).putAll rest := List.foldl_append
  rw [hsplit, held_putAll_of_ne h, held_put, if_pos rfl]

/-- Without a limit everything held in the window is found. -/
theorem Found.mem {request : Scan} {rows : List Row} (h : l.Found request rows) {r : Row}
    (hlimit : request.limit = none) (hseries : r.series ∈ request.series)
    (hwindow : request.window.contains r.time) (hheld : l.held r.place = some ⟨r.payload, r.note⟩) :
    r ∈ rows := by
  obtain ⟨ids, all, -, hids, -, hall, rfl⟩ := h
  rw [hlimit]
  exact List.mem_flatMap.2 ⟨r.series, (hids _).2 hseries, (hall _ r).2 ⟨rfl, hwindow, hheld⟩⟩

end Ledger

namespace Memory

variable {m : Memory} {p : Place}

/-- Whether the change writes at a place, or names it for removal under a retention period. -/
def Change.Meets (retention : Option Period) (p : Place) : Change → Prop
  | insert series v => (series, v.time) = p
  | insertBatch batch => ∃ e ∈ batch, (e.1, e.2.time) = p
  | c => ∃ named, c.names? retention = some named ∧ named p = true

/-- The change does not concern the place, or fails. -/
def Change.Spares (m : Memory) (p : Place) (c : Change) : Prop :=
  (∃ cause, c.answer m = .failed cause) ∨ ¬ c.Meets m.retention p

/-- Every change spares the place when its turn comes. -/
def Spares (p : Place) : Memory → List Change → Prop
  | _, [] => True
  | m, c :: rest => c.Spares m p ∧ Spares p (c.apply m) rest

/-- A change that spares a place leaves what is held there. -/
theorem held_apply {c : Change} (h : c.Spares m p) :
    (c.apply m).ledger.held p = m.ledger.held p := by
  have hstep := change_step m c
  rcases h with ⟨cause, hfailed⟩ | hmeets
  · rw [hfailed] at hstep
    exact congrFun hstep.held_of_failed p
  · generalize (c.apply m).ledger = l' at hstep ⊢
    generalize c.answer m = answer at hstep
    have hretention : m.retention = m.ledger.retention := rfl
    rw [hretention] at hmeets
    generalize m.ledger = l at hstep hmeets ⊢
    cases hstep with
    | insert _ series v => rw [Ledger.held_put, if_neg fun he => hmeets he.symm]
    | insertBatch _ batch => exact Ledger.held_putAll_of_ne fun e he hp => hmeets ⟨e, he, hp⟩
    | writeFails => rfl
    | @remove _ _ named hneeds _ hnames =>
      have hspared : named p = false := by
        refine eq_false_of_ne_true fun hnamed => hmeets ?_
        cases c with
        | insert => cases hneeds
        | insertBatch => cases hneeds
        | _ => exact ⟨named, hnames, hnamed⟩
      simp [Ledger.without, hspared]
    | setRetention => rfl
    | lacking => rfl

/-- So do many of them. -/
theorem held_applyAll {changes : List Change} (h : Spares p m changes) :
    (m.applyAll changes).ledger.held p = m.ledger.held p := by
  induction changes generalizing m with
  | nil => rfl
  | cons c rest ih =>
    obtain ⟨hfirst, hrest⟩ := h
    exact (ih hrest).trans (held_apply hfirst)

/-- A scan that does not fail and has no limit finds what is held. -/
theorem mem_scan {request : Scan} {r : Row} (hscans : m.failingScans = 0)
    (hlimit : request.limit = none) (hseries : r.series ∈ request.series)
    (hwindow : request.window.contains r.time)
    (hheld : m.ledger.held r.place = some ⟨r.payload, r.note⟩) :
    r ∈ (scan request m).1.rows := by
  rw [scan]
  simp only [hscans, if_true]
  exact (found_ledger m request).mem hlimit hseries hwindow hheld

/-- A batch that is stored holds, at each place, its last sample for it. -/
theorem held_of_batch {series : SeriesId} {v : Sample} {first rest : List (SeriesId × Sample)}
    (hstored : (m.insertBatch (first ++ (series, v) :: rest)).1.isOk = true)
    (hlast : ∀ e ∈ rest, (e.1, e.2.time) ≠ (series, v.time)) :
    (m.insertBatch (first ++ (series, v) :: rest)).2.ledger.held (series, v.time) =
      some ⟨v.payload, v.note⟩ := by
  rw [insertBatch] at hstored ⊢
  dsimp only at hstored ⊢
  split at hstored
  · rename_i hwrites
    rw [if_pos hwrites, ledger_putAll { m with batches := m.batches + 1 }]
    exact Ledger.held_putAll_of_last hlast
  · cases hstored

/-- What a batch has stored is found by every scan that covers its place, until something else is
written there or it is removed. -/
theorem mem_scan_of_batch {series : SeriesId} {v : Sample} {first rest : List (SeriesId × Sample)}
    (hstored : (m.insertBatch (first ++ (series, v) :: rest)).1.isOk = true)
    (hlast : ∀ e ∈ rest, (e.1, e.2.time) ≠ (series, v.time)) {changes : List Change}
    (hspared : Spares (series, v.time) (m.insertBatch (first ++ (series, v) :: rest)).2 changes)
    {request : Scan} (hlimit : request.limit = none) (hseries : series ∈ request.series)
    (hwindow : request.window.contains v.time)
    (hscans : ((m.insertBatch (first ++ (series, v) :: rest)).2.applyAll changes).failingScans = 0) :
    ⟨series, v.time, v.payload, v.note⟩ ∈ (scan request
      ((m.insertBatch (first ++ (series, v) :: rest)).2.applyAll changes)).1.rows := by
  refine mem_scan hscans hlimit hseries hwindow ?_
  exact (held_applyAll hspared).trans (held_of_batch hstored hlast)

end Memory

end Historian
