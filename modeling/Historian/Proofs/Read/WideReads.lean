import Historian.Proofs.Read.Lookups

/-!
# Wide reads

A wide read is put together from three reads: the last value before the window, the rows inside, and
the first value from its stop on.  They fit: what is reported is one contiguous piece of the series.

* `Archive.rows_split` — a time splits the rows of a window that it lies in.
* `Database.wide_spec` — what a wide read brings, in terms of the rows of three windows.
* `WideRead.Covers`, `Database.wide_covers` — the piece that is reported, and that nothing is missing
  from it.
-/

set_option autoImplicit false

namespace Historian

namespace Archive

variable {a : Archive} {id : SeriesId} {w : Window} {d : Direction}

/-- A time between the ends of a window splits its rows into those before it and the others. -/
theorem rows_split {t : Timestamp} (hstart : ∀ f ∈ w.start, f ≤ t) (hstop : ∀ u ∈ w.stop, t ≤ u) :
    a.rows id ⟨w.start, some t⟩ .ascending ++ a.rows id ⟨some t, w.stop⟩ .ascending =
      a.rows id w .ascending := by
  have hbefore : ∀ u, (⟨w.start, some t⟩ : Window).contains u = true ↔
      w.contains u = true ∧ u < t := by
    intro u
    simp only [Window.contains, Option.all_some, Bool.and_eq_true, decide_eq_true_eq]
    constructor
    · rintro ⟨hu, hlt⟩
      refine ⟨⟨hu, (Option.all_eq_true _ _).2 fun v hv => ?_⟩, hlt⟩
      exact decide_eq_true (Std.lt_of_lt_of_le hlt (hstop v hv))
    · rintro ⟨⟨hu, -⟩, hlt⟩
      exact ⟨hu, hlt⟩
  have hafter : ∀ u, (⟨some t, w.stop⟩ : Window).contains u = true ↔
      w.contains u = true ∧ t ≤ u := by
    intro u
    simp only [Window.contains, Option.all_some, Bool.and_eq_true, decide_eq_true_eq]
    constructor
    · rintro ⟨hle, hu⟩
      refine ⟨⟨(Option.all_eq_true _ _).2 fun v hv => ?_, hu⟩, hle⟩
      exact decide_eq_true (Std.le_trans (hstart v hv) hle)
    · rintro ⟨⟨-, hu⟩, hle⟩
      exact ⟨hle, hu⟩
  -- both sides answer the same read
  have hwhole := Database.answers_rows a id w .ascending
  suffices hparts : a.Answers [id] w .ascending
      (a.rows id ⟨w.start, some t⟩ .ascending ++ a.rows id ⟨some t, w.stop⟩ .ascending) from
    hparts.unique hwhole
  refine ⟨?_, fun r => ?_⟩
  · refine List.pairwise_append.2 ⟨(Database.answers_rows a id _ _).ordered,
      (Database.answers_rows a id _ _).ordered, fun x hx y hy => ?_⟩
    have hlt := ((hbefore x.time).1 (mem_rows.1 hx).2.1).2
    have hle := ((hafter y.time).1 (mem_rows.1 hy).2.1).2
    exact Direction.compareRows_eq_lt.2 (.inl (Std.compare_eq_lt.2 (Std.lt_of_lt_of_le hlt hle)))
  · rw [List.mem_append, mem_rows, mem_rows, hbefore, hafter, List.mem_singleton]
    constructor
    · rintro (⟨rfl, ⟨hin, -⟩, hget⟩ | ⟨rfl, ⟨hin, -⟩, hget⟩)
      · exact ⟨rfl, hin, hget⟩
      · exact ⟨rfl, hin, hget⟩
    · rintro ⟨rfl, hin, hget⟩
      by_cases hlt : r.time < t
      · exact .inl ⟨rfl, ⟨hin, hlt⟩, hget⟩
      · exact .inr ⟨rfl, ⟨hin, Std.not_lt.1 hlt⟩, hget⟩

theorem rows_descending (a : Archive) (id : SeriesId) (w : Window) :
    a.rows id w .descending = (a.rows id w .ascending).reverse := rfl

/-- Without its series and with it again, the first row of a window is the same. -/
theorem inSeries_head (a : Archive) (id : SeriesId) (w : Window) (d : Direction) :
    ((a.rows id w d).head?.map Row.sample).map (·.inSeries id) = (a.rows id w d).head? := by
  cases hrows : a.rows id w d with
  | nil => rfl
  | cons r rest =>
    obtain rfl : r.series = id := (mem_rows.1 (hrows ▸ List.mem_cons_self : r ∈ a.rows id w d)).1
    rfl

end Archive

/-- The last element of a list, if there is one, ends it. -/
theorem dropLast_append_toList {α : Type} (xs : List α) : xs.dropLast ++ xs.getLast?.toList = xs := by
  cases h : xs.getLast? with
  | none =>
    obtain rfl := List.getLast?_eq_none_iff.1 h
    rfl
  | some x => exact List.dropLast_append_getLast? x h

/-- The first element of a list, if there is one, begins it. -/
theorem toList_append_tail {α : Type} (xs : List α) : xs.head?.toList ++ xs.tail = xs := by
  cases xs <;> rfl

namespace WideRead

/-- All that is reported, in order. -/
def shown (read : WideRead) : List Row := read.first.toList ++ read.rows ++ read.last.toList

/-- The read reports the rows of the window and what the series holds next on both sides of it, and
that is a contiguous piece of the series. -/
structure Covers (a : Archive) (id : SeriesId) (start stop : Timestamp) (read : WideRead) : Prop where
  failure_eq : read.failure = none
  rows : a.Answers [id] ⟨some start, some stop⟩ .ascending read.rows
  first : ∃ before, a.Finds id IsGreatest {t | t < start} before ∧
    read.first = before.map (·.inSeries id)
  last : ∃ after, a.Finds id IsLeast {t | stop ≤ t} after ∧ read.last = after.map (·.inSeries id)
  ordered : read.shown.Pairwise fun x y => x.time < y.time
  /-- Of all that the series holds, nothing lies between two neighbours. -/
  contiguous : ∀ all, a.Answers [id] .all .ascending all → read.shown <:+: all

end WideRead

namespace Database

section

variable {σ : Type} {db : Database σ} {a : Archive} {Intact : σ → Prop} {s : σ}
  (hb : db.backend.ReadsFrom a Intact) (hs : Intact s)
include hb hs

/-- A wide read brings the rows of its window, with the row next to it on either side. -/
theorem wide_spec (p : Point) {start stop : Timestamp} {w : Window}
    (hnew : Window.new (some start) (some stop) = .ok w) :
    (db.wide p start stop s).1 =
      ⟨(a.rows p.series ⟨none, some start⟩ .descending).head?, a.rows p.series w .ascending,
        (a.rows p.series ⟨some stop, none⟩ .ascending).head?, none⟩ := by
  obtain ⟨s₁, hbefore, hs₁⟩ := first_spec hb hs p ⟨none, some start⟩ .descending
  obtain ⟨hbody, hs₂⟩ := drain_spec hb p.series w none .ascending 0 hs₁
  rcases hdrain : db.drain p.series w none .ascending .none 0 s₁ with ⟨body, s₂⟩
  rw [hdrain] at hbody hs₂
  obtain rfl : body = ⟨a.rows p.series w .ascending, none⟩ := hbody
  obtain ⟨s₃, hafter, -⟩ := first_spec hb hs₂ p ⟨some stop, none⟩ .ascending
  simp only [wide, hnew, bind, StateT.bind, valueBefore, valueAfter, hbefore, hdrain, hafter,
    pure_apply, Archive.inSeries_head]

end

/-- What a wide read of the store in memory reports is one contiguous piece of the series, for every
content of the store, every window, also an empty one, and all sizes of chunks. -/
theorem wide_covers {db : Database Memory} (hdb : db.OverMemory) {m : Memory}
    (hscans : m.failingScans = 0) (p : Point) {start stop : Timestamp} (hends : start ≤ stop) :
    WideRead.Covers m.archive p.series start stop (db.wide p start stop m).1 := by
  have hb := hdb.readsFrom m.archive
  have hintact : Memory.Intact m.archive m := ⟨hscans, rfl⟩
  rw [wide_spec hb hintact p (Window.new_eq_ok (ends_of_le hends))]
  -- the series is split at both ends of the window
  have hall : m.archive.rows p.series .all .ascending =
      m.archive.rows p.series ⟨none, some start⟩ .ascending ++
        (m.archive.rows p.series ⟨some start, some stop⟩ .ascending ++
          m.archive.rows p.series ⟨some stop, none⟩ .ascending) := by
    have hstop := @Archive.rows_split m.archive p.series ⟨some start, none⟩ stop
      (by rintro f ⟨⟩; exact hends) (by rintro u ⟨⟩)
    have hstart := @Archive.rows_split m.archive p.series .all start
      (by rintro f ⟨⟩) (by rintro u ⟨⟩)
    exact (hstart.symm.trans (congrArg _ hstop.symm))
  have hinfix : WideRead.shown ⟨(m.archive.rows p.series ⟨none, some start⟩ .descending).head?,
      m.archive.rows p.series ⟨some start, some stop⟩ .ascending,
      (m.archive.rows p.series ⟨some stop, none⟩ .ascending).head?, none⟩ <:+:
        m.archive.rows p.series .all .ascending := by
    refine ⟨(m.archive.rows p.series ⟨none, some start⟩ .ascending).dropLast,
      (m.archive.rows p.series ⟨some stop, none⟩ .ascending).tail, ?_⟩
    simp only [WideRead.shown, Archive.rows_descending, List.head?_reverse, hall]
    conv => rhs; rw [← dropLast_append_toList (m.archive.rows p.series ⟨none, some start⟩ .ascending),
      ← toList_append_tail (m.archive.rows p.series ⟨some stop, none⟩ .ascending)]
    simp only [List.append_assoc]
  constructor
  case failure_eq => rfl
  case rows => exact answers_rows m.archive p.series _ _
  case first =>
    refine ⟨_, (m.archive.finds_head p.series ⟨none, some start⟩ .descending).congr fun t => ?_,
      (m.archive.inSeries_head ..).symm⟩
    simp [Window.contains]
  case last =>
    refine ⟨_, (m.archive.finds_head p.series ⟨some stop, none⟩ .ascending).congr fun t => ?_,
      (m.archive.inSeries_head ..).symm⟩
    simp [Window.contains]
  case ordered =>
    refine (Archive.pairwise_rows m.archive p.series .all .ascending).sublist hinfix.sublist
      |>.imp fun h => Std.compare_eq_lt.1 h
  case contiguous =>
    intro all hanswers
    exact hanswers.unique (answers_rows m.archive p.series .all .ascending) ▸ hinfix

/-- A window without a time in it, between two stored times, and one that begins and ends at stored
times, from a store that brings one row at a time. -/
theorem wide_covers_empty_window :
    let row (t : Timestamp) : Row := ⟨1, t, .flag true, none⟩
    let m : Memory := { Memory.new with
      archive := Archive.empty.putAll
        [(1, (row 9).sample), (1, (row (-3)).sample), (2, (row 5).sample), (1, (row 4).sample)] }
    let db : Database Memory :=
      ⟨Memory.backend.mandatoryOnly (some 1) none, .all, 3, 1, by decide, by decide⟩
    let p : Point := ⟨7, 1⟩
    (db.wide p 5 5 m).1 = ⟨some (row 4), [], some (row 9), none⟩ ∧
      WideRead.Covers m.archive 1 5 5 (db.wide p 5 5 m).1 ∧
      (db.wide p 4 9 m).1 = ⟨some (row (-3)), [row 4], some (row 9), none⟩ ∧
      WideRead.Covers m.archive 1 4 9 (db.wide p 4 9 m).1 := by
  intro row m db p
  have hdb : db.OverMemory := .inr ⟨1, by decide, rfl⟩
  have hscans : m.failingScans = 0 := rfl
  exact ⟨by decide +kernel, wide_covers hdb hscans p (by decide), by decide +kernel,
    wide_covers hdb hscans p (by decide)⟩

end Database

end Historian
