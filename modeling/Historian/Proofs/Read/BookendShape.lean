import Historian.Proofs.Read.Bookends

/-!
# The shape of a bookend read

Both bookend reads report every series once at the start and once at the stop, and between them its
rows.  One read does so series by series, the other reports all series together.

* `BookendRead.Edges` — the two entries of a series are right, given the rows reported of it.
* `BookendRead.RowsOf` — the rows reported are the first ones after the start.
* `Database.bookends_shape` — the whole sequence of reports of both reads.
-/

set_option autoImplicit false

namespace Historian

namespace BookendRead

/-! ## Right reports -/

/-- The entries of a series at both ends of a read that reports `rows` of it.  The first one carries
what is in force at the start, and is not synthesized if that is stored there; the last one carries
the last row, or without rows the same as the first. -/
def Edges (a : Archive) (start stop : Timestamp) (id : SeriesId) (rows : List Row)
    (first last : BookendEvent) : Prop :=
  ∃ opened synthesized, a.InForce id start opened ∧
    (synthesized = false ↔ (a.get? id start).isSome) ∧
    first = .first (opened.movedTo start) synthesized ∧
    last = .last ((rows.getLast?.elim opened .ofRow).movedTo stop) true

/-- Of the values that some series have after the start and before the stop, `rows` are the first
ones, as many as the limit leaves after the values at the start. -/
def RowsOf (a : Archive) (series : List SeriesId) (start stop : Timestamp) (limit : Option Nat)
    (rows : List Row) : Prop :=
  ∃ all, a.Answers series ⟨some start, some stop⟩ .ascending all ∧
    rows <+: afterStart start all ∧ rows = afterStart start (firstOf limit all)

/-- The reports come series by series. -/
def InTurn (a : Archive) (ids : List SeriesId) (start stop : Timestamp) (limit : Option Nat)
    (read : BookendRead) : Prop :=
  ∃ (first last : SeriesId → BookendEvent) (rows : SeriesId → List Row),
    read = ⟨ids.flatMap fun id => first id :: ((rows id).map .row ++ [last id]), none⟩ ∧
    ∀ id ∈ ids, RowsOf a [id] start stop limit (rows id) ∧
      Edges a start stop id (rows id) (first id) (last id)

/-- All series are reported at the start, then come the rows of all, then all are reported at the
stop. -/
def Together (a : Archive) (ids : List SeriesId) (start stop : Timestamp) (limit : Option Nat)
    (read : BookendRead) : Prop :=
  ∃ (first last : SeriesId → BookendEvent) (rows : List Row),
    read = ⟨ids.map first ++ rows.map .row ++ ids.map last, none⟩ ∧
    RowsOf a ids start stop limit rows ∧
    ∀ id ∈ ids, Edges a start stop id (rows.filter fun r => r.series = id) (first id) (last id)

theorem rowsOf_answer {a : Archive} {series : List SeriesId} {start stop : Timestamp}
    (limit : Option Nat) {all : List Row}
    (hall : a.Answers series ⟨some start, some stop⟩ .ascending all) :
    RowsOf a series start stop limit (afterStart start (firstOf limit all)) := by
  refine ⟨all, hall, ?_, rfl⟩
  rw [afterStart_firstOf (Database.times_of_answers hall).1
    fun r hr => Database.start_le_of_contains ((hall.mem_iff r).1 hr).2.1]
  cases limit with
  | none => exact List.prefix_refl _
  | some l => exact List.take_prefix _ _

/-- What is in force at `t` is stored there or has to be synthesized. -/
theorem synthesized_iff {a : Archive} {id : SeriesId} {t : Timestamp} {b : Bookend}
    (h : a.InForce id t b) :
    (b.payload.isNone || decide (b.time ≠ t)) = false ↔ (a.get? id t).isSome := by
  cases h with
  | vacant hnone => simp [Bookend.vacant, hnone t (Std.le_refl _)]
  | @value u e hle hget hlast =>
    simp only [Option.isNone_some, Bool.false_or, decide_eq_false_iff_not, ne_eq, Decidable.not_not]
    constructor
    · rintro rfl
      rw [hget]
      rfl
    · intro hstored
      by_cases hlt : u < t
      · rw [hlast t hlt (Std.le_refl _)] at hstored
        cases hstored
      · grind

theorem edges_standing (a : Archive) (start stop : Timestamp) (id : SeriesId) (rows : List Row) :
    Edges a start stop id rows (Standing.opening start (a.standing id start))
      (Standing.closing stop (Standing.after (a.standing id start) rows)) :=
  have hforce := a.inForce_standing id start
  ⟨_, _, hforce, synthesized_iff hforce, rfl, rfl⟩

end BookendRead

namespace Database

/-! ## Both reads -/

/-- What both bookend reads report, whatever the store holds. -/
theorem bookends_shape {db : Database Memory} (hdb : db.OverMemory) {m : Memory}
    (hscans : m.failingScans = 0) (points : List Point) {start stop : Timestamp}
    (hends : start ≤ stop) (limit : Option Nat) :
    (seriesOf points).Pairwise (· < ·) ∧
    (∀ id, id ∈ seriesOf points ↔ id ∈ points.map Point.series) ∧
    BookendRead.InTurn m.archive (seriesOf points) start stop limit
      (db.bookendsPerPoint points start stop (limit.map Int.ofNat) m).1 ∧
    BookendRead.Together m.archive (seriesOf points) start stop limit
      (db.bookendsCombined points start stop (limit.map Int.ofNat) m).1 := by
  have hargs : checkArguments (some start) (some stop) (limit.map Int.ofNat) =
      .ok (⟨some start, some stop⟩, limit) :=
    checkArguments_eq_ok (fun f t hf ht => by
      obtain rfl := Option.some.inj hf
      obtain rfl := Option.some.inj ht
      exact hends) limit
  have hb := hdb.readsFrom m.archive
  have hintact : Memory.Intact m.archive m := ⟨hscans, rfl⟩
  refine ⟨?_, fun id => SortedMap.mem_distinct, ?_, ?_⟩
  · exact (SortedMap.pairwise_distinct _).imp Std.compare_eq_lt.1
  · exact ⟨_, _, _, bookendsPerPoint_spec hb points hargs hintact, fun id _ =>
      ⟨BookendRead.rowsOf_answer limit (answers_rows m.archive id _ _),
        BookendRead.edges_standing ..⟩⟩
  · obtain ⟨rows, hrows, -⟩ := m.archive.exists_answer points ⟨some start, some stop⟩ .ascending
    exact ⟨_, _, _, bookendsCombined_spec hb points hargs hrows hintact,
      BookendRead.rowsOf_answer limit (hrows.congr fun id => SortedMap.mem_distinct.symm),
      fun id _ => BookendRead.edges_standing ..⟩

/-- A value at the start and two after it; a value before the start and one at the stop; nothing. -/
def mixedStore : Memory :=
  { Memory.new with
    archive := Archive.empty.putAll
      [(1, ⟨0, .state 1, some "at the start"⟩), (1, ⟨5, .state 2, none⟩), (1, ⟨7, .state 3, none⟩),
        (2, ⟨-4, .state 4, none⟩), (2, ⟨10, .state 5, none⟩)] }

/-- The limit cuts off the last row of the first series, of which the others have none. -/
theorem bookends_shape_mixed :
    let points : List Point := [⟨1, 3⟩, ⟨2, 1⟩, ⟨3, 2⟩, ⟨4, 1⟩]
    let perPoint := (plainDatabase.bookendsPerPoint points 0 10 (some 2) mixedStore).1
    perPoint.events =
      [.first ⟨1, 0, some (.state 1), some "at the start"⟩ false, .row ⟨1, 5, .state 2, none⟩,
        .last ⟨1, 10, some (.state 2), none⟩ true,
        .first ⟨2, 0, some (.state 4), none⟩ true, .last ⟨2, 10, some (.state 4), none⟩ true,
        .first ⟨3, 0, none, none⟩ true, .last ⟨3, 10, none, none⟩ true] ∧
    BookendRead.InTurn mixedStore.archive [1, 2, 3] 0 10 (some 2) perPoint ∧
    BookendRead.Together mixedStore.archive [1, 2, 3] 0 10 (some 2)
      (plainDatabase.bookendsCombined points 0 10 (some 2) mixedStore).1 := by
  intro points perPoint
  have hdb : plainDatabase.OverMemory := .inl rfl
  have hscans : mixedStore.failingScans = 0 := rfl
  have hends : (0 : Timestamp) ≤ 10 := by decide
  obtain ⟨-, -, hinTurn, htogether⟩ := bookends_shape hdb hscans points hends (some 2)
  exact ⟨by decide +kernel, hinTurn, htogether⟩

end Database

end Historian
