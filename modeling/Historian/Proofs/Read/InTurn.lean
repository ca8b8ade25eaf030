import Historian.Proofs.Read.Bookends
import Mathlib.Data.List.Forall2

/-!
# Reads point by point

A read of several points goes through their distinct series one after the other, and of each it
brings the first rows of the window.  The reads of a single point are such reads of one series, with
arguments of their own.

* `StreamBody.inTurn_yields` — sources in turn give what the first gives, and then what the others do.
* `Database.streamPerPoint_spec`, `Database.collect_spec` — streams, and reads of one point.
* `Database.ReadsWindows` — what every read of the family brings, as one structure.
* `Database.exists_readsWindows` — all of that for the store in memory, capped or not.
-/

set_option autoImplicit false

namespace Historian

variable {σ : Type}

/-! ## Sources in turn -/

/-- Sources in turn give what the first gives, and then what the others do. -/
theorem StreamBody.inTurn_yields {b : Backend σ} {Intact : σ → Prop} {sources : List LimitedCursor}
    {lists : List (List Row)}
    (h : List.Forall₂ (Yields (LimitedCursor.next b) Intact) sources lists) :
    Yields (StreamBody.next b) Intact (.inTurn sources) lists.flatten := by
  induction h with
  | nil => exact fun s hs => ⟨rfl, hs⟩
  | @cons c xs rest others hfirst _ ih =>
    rw [List.flatten_cons]
    induction xs generalizing c with
    | nil =>
      -- the first source has ended, so the call goes on to the others
      refine Yields.of_step fun s hs => ?_
      obtain ⟨hitem, hs'⟩ := hfirst s hs
      refine ⟨.inTurn rest, (c.next b s).2, hs', ?_, ih⟩
      rcases hnext : c.next b s with ⟨⟨item, c'⟩, s'⟩
      rw [hnext] at hitem
      obtain rfl : item = .ended := hitem
      simp only [StreamBody.next, nextInTurn, hnext]
    | cons x xs ihxs =>
      intro s hs
      obtain ⟨hitem, hs', hrest⟩ := hfirst s hs
      rcases hnext : c.next b s with ⟨⟨item, c'⟩, s'⟩
      rw [hnext] at hitem hs' hrest
      obtain rfl : item = .value x := hitem
      simp only [StreamBody.next, nextInTurn, hnext]
      exact ⟨trivial, hs', ihxs hrest⟩

namespace Database

variable {db : Database σ} {a : Archive} {Intact : σ → Prop}

/-- The user of a stream point by point gets the first rows of each series, and then it has ended. -/
theorem streamPerPoint_spec (hb : db.backend.ReadsFrom a Intact) (points : List Point)
    {start stop : Option Timestamp} {limit : Option Int} {w : Window} {l : Option Nat}
    (hargs : checkArguments start stop limit = .ok (w, l)) (d : Direction) {s : σ} (hs : Intact s) :
    ∃ t, (db.streamPerPoint points start stop limit d s).1 = .ok t ∧ ∀ n,
      (t.take db.backend n (db.streamPerPoint points start stop limit d s).2).1.1 =
        (((seriesOf points).flatMap fun id => firstOf l (a.rows id w d)).take n).map .ok := by
  by_cases hzero : l = some 0
  · -- nothing is opened, and there is nothing to give
    subst hzero
    refine ⟨.empty, by simp [streamPerPoint, openStream, hargs], fun n => ?_⟩
    cases n with
    | zero => simp [Stream.take]
    | succ n => simp [Stream.take, Stream.next, Stream.empty, Stream.close]
  · obtain ⟨lease, hlease, hs'⟩ := hb.openLease s hs
    rcases hopen : db.backend.openLease s with ⟨answer, s'⟩
    rw [hopen] at hlease hs'
    obtain rfl : answer = .ok lease := hlease
    simp only [streamPerPoint, openStream, hargs, hzero, if_false, hopen]
    refine ⟨_, rfl, fun n => ?_⟩
    have hsources : List.Forall₂ (Yields (LimitedCursor.next db.backend) Intact)
        ((seriesOf points).map fun id =>
          (⟨.onWindow id w (db.limitedChunk l) d, l⟩ : LimitedCursor))
        ((seriesOf points).map fun id => firstOf l (a.rows id w d)) := by
      rw [List.forall₂_map_left_iff, List.forall₂_map_right_iff, List.forall₂_same]
      intro id _
      exact LimitedCursor.yields (Cursor.onWindow_yields hb id w (db.limitedChunk_pos l) d)
    have hbody := StreamBody.inTurn_yields hsources
    rw [← List.flatMap_def] at hbody
    exact (Stream.take_of_yields hb _ none hbody hs').1

/-- A read of one point whose arguments are in order brings the first rows of its window. -/
theorem collect_spec (hb : db.backend.ReadsFrom a Intact) (p : Point)
    {args : Except Failure (Window × Option Nat)} {w : Window} {l : Option Nat}
    (hargs : args = .ok (w, l)) (d : Direction) {s : σ} (hs : Intact s) :
    (db.collect p args d s).1 = .ok ((firstOf l (a.rows p.series w d)).map Row.sample) := by
  subst hargs
  have hrows := (drain_spec hb p.series w l d 0 hs).1
  show ((db.drain p.series w l d .none 0 s).1.toExcept.map _) = _
  rw [hrows]
  rfl

/-! ## The store in memory -/

/-- What the reads of a database point by point bring of a store, `held` giving the rows of a series
in a window from the oldest to the newest. -/
structure ReadsWindows (db : Database Memory) (m : Memory)
    (held : SeriesId → Window → List Row) : Prop where
  perPoint : ∀ (points : List Point) {start stop : Option Timestamp},
    (∀ f t, start = some f → stop = some t → f ≤ t) → ∀ (limit : Option Nat) (d : Direction),
    (db.perPoint points start stop (limit.map Int.ofNat) d .none m).1 =
      ⟨(seriesOf points).flatMap fun id => firstOf limit (d.arrange (held id ⟨start, stop⟩)), none⟩
  streamPerPoint : ∀ (points : List Point) {start stop : Option Timestamp},
    (∀ f t, start = some f → stop = some t → f ≤ t) → ∀ (limit : Option Nat) (d : Direction),
    ∃ t, (db.streamPerPoint points start stop (limit.map Int.ofNat) d m).1 = .ok t ∧
      ∀ n, (t.take db.backend n
        (db.streamPerPoint points start stop (limit.map Int.ofNat) d m).2).1.1 =
          (((seriesOf points).flatMap fun id =>
            firstOf limit (d.arrange (held id ⟨start, stop⟩))).take n).map .ok
  /-- A stream of one point. -/
  streamOne : ∀ (p : Point) {start stop : Option Timestamp},
    (∀ f t, start = some f → stop = some t → f ≤ t) → ∀ (limit : Option Nat) (d : Direction),
    ∃ t, (db.streamPerPoint [p] start stop (limit.map Int.ofNat) d m).1 = .ok t ∧
      ∀ n, (t.take db.backend n
        (db.streamPerPoint [p] start stop (limit.map Int.ofNat) d m).2).1.1 =
          ((firstOf limit (d.arrange (held p.series ⟨start, stop⟩))).take n).map .ok
  range : ∀ (p : Point) {start stop : Timestamp}, start ≤ stop →
    (db.range p start (some stop) m).1 =
      .ok ((held p.series ⟨some start, some stop⟩).map Row.sample)
  /-- A range without a stop. -/
  rangeFrom : ∀ (p : Point) (start : Timestamp),
    (db.range p start none m).1 = .ok ((held p.series ⟨some start, none⟩).map Row.sample)
  rangeWith : ∀ (p : Point) {start stop : Timestamp}, start ≤ stop →
    (db.rangeWith p start stop .none m).1 = ⟨held p.series ⟨some start, some stop⟩, none⟩
  latest : ∀ (p : Point) (limit : Nat),
    (db.latest p limit m).1 = .ok (((held p.series .all).reverse.take limit).map Row.sample)
  latestBefore : ∀ (p : Point) (stop : Timestamp) (limit : Nat),
    (db.latestBefore p stop limit m).1 =
      .ok (((held p.series ⟨none, some stop⟩).reverse.take limit).map Row.sample)
  count : ∀ (p : Point) {start stop : Option Timestamp},
    (∀ f t, start = some f → stop = some t → f ≤ t) →
    (db.count p start stop m).1 = .ok (held p.series ⟨start, stop⟩).length

theorem mem_seriesOf {points : List Point} {id : SeriesId} :
    id ∈ seriesOf points ↔ ∃ p ∈ points, p.series = id := by
  rw [seriesOf, SortedMap.mem_distinct, List.mem_map]

/-- A read of one point goes through one series. -/
@[simp] theorem seriesOf_singleton (p : Point) : seriesOf [p] = [p.series] := rfl

/-- Reads point by point bring the first rows of each series, in every form: for every content of the
store, all points, ends, limits and directions and all sizes of chunks, the receiver of a read and
the user of a stream get the same rows, and the reads of one point are instances of that. -/
theorem exists_readsWindows {db : Database Memory} (hdb : db.OverMemory) {m : Memory}
    (hscans : m.failingScans = 0) :
    ∃ held : SeriesId → Window → List Row,
      (∀ id w, m.archive.Answers [id] w .ascending (held id w)) ∧
      (∀ points, (seriesOf points).Pairwise (· < ·) ∧
        ∀ id, id ∈ seriesOf points ↔ ∃ p ∈ points, p.series = id) ∧
      db.ReadsWindows m held := by
  have hb := hdb.readsFrom m.archive
  have hintact : Memory.Intact m.archive m := ⟨hscans, rfl⟩
  refine ⟨fun id w => m.archive.rows id w .ascending, fun id w => answers_rows m.archive id w _,
    fun points => ⟨pairwise_seriesOf points, fun id => mem_seriesOf⟩, ?_⟩
  constructor
  case perPoint =>
    intro points start stop hends limit d
    exact (perPoint_spec hb points (checkArguments_eq_ok hends limit) d hintact).1
  case streamPerPoint =>
    intro points start stop hends limit d
    exact streamPerPoint_spec hb points (checkArguments_eq_ok hends limit) d hintact
  case streamOne =>
    intro p start stop hends limit d
    have hstream := streamPerPoint_spec hb [p] (checkArguments_eq_ok hends limit) d hintact
    rwa [seriesOf_singleton, List.flatMap_singleton] at hstream
  case range =>
    intro p start stop hle
    refine collect_spec hb p (l := none) ?_ _ hintact
    rw [Window.new_eq_ok (ends_of_le hle)]
    rfl
  case rangeFrom =>
    intro p start
    exact collect_spec hb p (l := none) rfl _ hintact
  case rangeWith =>
    intro p start stop hle
    simp only [rangeWith, Window.new_eq_ok (ends_of_le hle), checked]
    exact (drain_spec hb p.series _ none .ascending 0 hintact).1
  case latest =>
    intro p limit
    refine collect_spec hb p (l := some limit) ?_ _ hintact
    rw [show checkLimit (some (limit : Int)) = .ok (some limit) from checkLimit_eq_ok (some limit)]
    rfl
  case latestBefore =>
    intro p stop limit
    refine collect_spec hb p (l := some limit) ?_ _ hintact
    rw [show checkLimit (some (limit : Int)) = .ok (some limit) from checkLimit_eq_ok (some limit)]
    rfl
  case count =>
    intro p start stop hends
    have hargs : (do let w ← Window.new start stop; return (w, none) :
        Except Failure (Window × Option Nat)) = .ok (⟨start, stop⟩, none) := by
      rw [Window.new_eq_ok hends]
      rfl
    have hcollect := collect_spec hb p hargs .ascending hintact
    show (db.collect p _ .ascending m).1.map List.length = _
    rw [hcollect]
    exact congrArg Except.ok (List.length_map _)

/-- Two series, one of them asked for twice, from a store that brings one row at a time: the latest
two of the second series are found in two scans. -/
theorem exists_readsWindows_one_at_a_time :
    let sample (t : Timestamp) : Sample := ⟨t, .flag true, some "shared"⟩
    let m : Memory := { Memory.new with
      archive := Archive.empty.putAll [(2, sample 5), (1, sample 9), (1, sample 5), (1, sample 7)] }
    let db : Database Memory :=
      ⟨Memory.backend.mandatoryOnly (some 1) none, .all, 3, 1, by decide, by decide⟩
    let points : List Point := [⟨7, 2⟩, ⟨8, 1⟩, ⟨9, 2⟩]
    (∃ held : SeriesId → Window → List Row,
      (∀ id w, m.archive.Answers [id] w .ascending (held id w)) ∧
      (db.perPoint points (some 5) (some 9) (some 2) .descending .none m).1 =
        ⟨(seriesOf points).flatMap fun id => (held id ⟨some 5, some 9⟩).reverse.take 2, none⟩ ∧
      (db.latest ⟨8, 1⟩ 2 m).1 = .ok (((held 1 .all).reverse.take 2).map Row.sample)) ∧
    seriesOf points = [1, 2] ∧ (db.latest ⟨8, 1⟩ 2 m).1.toOption = some [sample 9, sample 7] := by
  intro sample m db points
  have hdb : db.OverMemory := .inr ⟨1, by decide, rfl⟩
  obtain ⟨held, hheld, -, hreads⟩ := exists_readsWindows hdb (m := m) rfl
  refine ⟨⟨held, hheld, ?_, hreads.latest ⟨8, 1⟩ 2⟩, by decide, by decide +kernel⟩
  exact hreads.perPoint points (ends_of_le (by decide)) (some 2) .descending

end Database

end Historian
