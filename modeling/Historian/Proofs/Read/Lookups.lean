import Historian.Proofs.Read.Bookends
import Historian.Proofs.Store.Ranking
import Mathlib.Order.Bounds.Basic

/-!
# Looking up single values

Every look-up of one value reads the first row of some window in some direction, so it finds the
value at the least or the greatest of the times that the series has in that window.  The ends of time
are no exception: the window of the last time there is has no stop.

* `Archive.Picks`, `Archive.Finds` — what a look-up finds, said by times and entries alone.
* `Archive.finds_head` — the first row of a window is what is found in it.
* `Database.first_spec`, `Database.extreme_spec` — the reads that all look-ups are made of.
* `Database.LooksUp`, `Database.looksUp` — every look-up of the store in memory, as one structure.
-/

set_option autoImplicit false

namespace Historian

/-! ## What is found -/

/-- The end of some times that a read in this direction meets first. -/
def Direction.IsFirst : Direction → Set Timestamp → Timestamp → Prop
  | .ascending => IsLeast
  | .descending => IsGreatest

namespace Archive

/-- The time is the one that `IsEnd` singles out among some times, and is missing where there are
none. -/
def Picks (IsEnd : Set Timestamp → Timestamp → Prop) (times : Set Timestamp) :
    Option Timestamp → Prop
  | some t => IsEnd times t
  | none => times = ∅

/-- The sample is what the series holds at the time that `IsEnd` singles out among its times in a
span, and is missing where the series has no such time. -/
def Finds (a : Archive) (id : SeriesId) (IsEnd : Set Timestamp → Timestamp → Prop)
    (span : Set Timestamp) (found : Option Sample) : Prop :=
  Picks IsEnd (a.timesOf id ∩ span) (found.map Sample.time) ∧
    ∀ s ∈ found, a.get? id s.time = some ⟨s.payload, s.note⟩

/-- All times at which some of the points have a value. -/
def timesOfAll (a : Archive) (points : List Point) : Set Timestamp :=
  {t | ∃ p ∈ points, t ∈ a.timesOf p.series}

/-- The span goes from the least of some times to the greatest, and is missing where there are
none. -/
inductive Spans (times : Set Timestamp) : Option Span → Prop
  | empty (hempty : times = ∅) : Spans times none
  | between {first last : Timestamp} (hfirst : IsLeast times first)
    (hlast : IsGreatest times last) : Spans times (some ⟨first, last⟩)

variable {a : Archive} {id : SeriesId} {w : Window} {d : Direction}

theorem mem_timesOf_iff {t : Timestamp} : t ∈ a.timesOf id ↔ ∃ e, a.get? id t = some e :=
  Option.isSome_iff_exists

/-- The span from the least to the greatest time does not go backwards. -/
theorem Spans.first_le_last {times : Set Timestamp} {span : Span} (h : Spans times (some span)) :
    span.first ≤ span.last := by
  cases h with
  | between hfirst hlast => exact hlast.2 hfirst.1

/-- Of rows in the order of the direction the first one has the time that it meets first. -/
theorem isFirst_head {r : Row} {rest : List Row}
    (hordered : (r :: rest).Pairwise fun x y => (d.compareTimes x.time y.time).isLE = true) :
    d.IsFirst {t | ∃ x ∈ r :: rest, x.time = t} r.time := by
  have hle : ∀ x ∈ r :: rest, (d.compareTimes r.time x.time).isLE = true := by
    intro x hx
    rcases List.mem_cons.1 hx with rfl | hx
    · have hself : d.compareTimes x.time x.time = .eq := Direction.compareTimes_eq_eq.2 rfl
      rw [hself]
      rfl
    · exact (List.pairwise_cons.1 hordered).1 x hx
  cases d with
  | ascending =>
    refine ⟨⟨r, List.mem_cons_self, rfl⟩, ?_⟩
    rintro _ ⟨x, hx, rfl⟩
    exact Std.isLE_compare.1 (hle x hx)
  | descending =>
    refine ⟨⟨r, List.mem_cons_self, rfl⟩, ?_⟩
    rintro _ ⟨x, hx, rfl⟩
    exact Std.isLE_compare.1 (hle x hx)

/-- At most one time is the first of some. -/
theorem Picks.unique {times : Set Timestamp} {t u : Option Timestamp}
    (ht : Picks d.IsFirst times t) (hu : Picks d.IsFirst times u) : t = u := by
  have hnone : ∀ v, Picks d.IsFirst ∅ (some v) → False := by
    cases d <;> exact fun v hv => Set.notMem_empty v hv.1
  cases t with
  | none =>
    obtain rfl : times = ∅ := ht
    cases u with
    | none => rfl
    | some u => exact (hnone u hu).elim
  | some t =>
    cases u with
    | none =>
      obtain rfl : times = ∅ := hu
      exact (hnone t ht).elim
    | some u =>
      cases d with
      | ascending => exact congrArg some (Int64.le_antisymm (ht.2 hu.1) (hu.2 ht.1))
      | descending => exact congrArg some (Int64.le_antisymm (hu.2 ht.1) (ht.2 hu.1))

/-- The first of some rows in order picks the time that the direction meets first. -/
theorem picks_head {rows : List Row} {times : Set Timestamp}
    (hordered : rows.Pairwise fun x y => (d.compareTimes x.time y.time).isLE = true)
    (htimes : ∀ t, t ∈ times ↔ ∃ x ∈ rows, x.time = t) :
    Picks d.IsFirst times (rows.head?.map Row.time) := by
  obtain rfl : times = {t | ∃ x ∈ rows, x.time = t} := Set.ext htimes
  cases rows with
  | nil => simp [Picks]
  | cons r rest => exact isFirst_head hordered

/-- What a window holds of a series first is what is found in it. -/
theorem finds_head (a : Archive) (id : SeriesId) (w : Window) (d : Direction) :
    a.Finds id d.IsFirst {t | w.contains t = true} ((a.rows id w d).head?.map Row.sample) := by
  constructor
  · rw [Option.map_map]
    refine picks_head ((pairwise_rows a id w d).imp fun h => by simp [h]) fun t => ?_
    rw [Set.mem_inter_iff, mem_timesOf_iff]
    constructor
    · rintro ⟨⟨e, hget⟩, hin⟩
      exact ⟨⟨id, t, e.payload, e.note⟩, mem_rows.2 ⟨rfl, hin, hget⟩, rfl⟩
    · rintro ⟨r, hr, rfl⟩
      obtain ⟨-, hin, hget⟩ := mem_rows.1 hr
      exact ⟨⟨_, hget⟩, hin⟩
  · intro s hs
    obtain ⟨r, hr, rfl⟩ := Option.map_eq_some_iff.1 hs
    exact (mem_rows.1 (List.mem_of_mem_head? hr)).2.2

/-- What is found depends on the times of the span alone. -/
theorem Finds.congr {IsEnd : Set Timestamp → Timestamp → Prop} {span span' : Set Timestamp}
    {found : Option Sample} (h : a.Finds id IsEnd span found) (hspan : ∀ t, t ∈ span ↔ t ∈ span') :
    a.Finds id IsEnd span' found :=
  Set.ext hspan ▸ h

/-- What is found at a single time is what the series holds there. -/
theorem eq_get?_of_finds {t : Timestamp} {found : Option Sample}
    (h : a.Finds id IsLeast {t} found) :
    found = (a.get? id t).map fun e => ⟨t, e.payload, e.note⟩ := by
  obtain ⟨hpicks, hentry⟩ := h
  cases found with
  | none =>
    have hnot : t ∉ a.timesOf id := fun ht =>
      Set.notMem_empty t ((show a.timesOf id ∩ {t} = ∅ from hpicks) ▸ ⟨ht, rfl⟩)
    rw [Option.not_isSome_iff_eq_none.1 hnot]
    rfl
  | some s =>
    obtain rfl : s.time = t := hpicks.1.2
    rw [hentry s rfl]
    rfl

end Archive

/-- The window of a time contains that time alone, also at the end of time. -/
theorem Window.contains_single {t u : Timestamp} : (single t).contains u = true ↔ u = t := by
  have hstop : (⟨none, Timestamp.next? t⟩ : Window).contains u = true ↔ u ≤ t := contains_until
  simp only [contains, single, Option.all_none, Option.all_some, Bool.true_and, Bool.and_eq_true,
    decide_eq_true_eq] at hstop ⊢
  rw [hstop]
  grind

namespace Database

/-! ## The reads that look-ups are made of -/

section

variable {σ : Type} {db : Database σ} {a : Archive} {Intact : σ → Prop} {s : σ}
  (hb : db.backend.ReadsFrom a Intact) (hs : Intact s)
include hb hs

/-- Looking for the first value of a window brings its first row, and does not fail. -/
theorem first_spec (p : Point) (w : Window) (d : Direction) :
    ∃ s', db.first p w d s = (.ok ((a.rows p.series w d).head?.map Row.sample), s') ∧ Intact s' := by
  obtain ⟨hrows, hs'⟩ := drain_spec hb p.series w (some 1) d 0 hs
  refine ⟨_, ?_, hs'⟩
  simp only [first, collect, samples, checked, bind, StateT.bind]
  rcases hcall : db.drain p.series w (some 1) d .none 0 s with ⟨delivery, s'⟩
  rw [hcall] at hrows
  obtain rfl := hrows
  cases a.rows p.series w d <;> rfl

/-- So what it finds is the value at the time that the direction meets first. -/
theorem first_finds (p : Point) (w : Window) (d : Direction) :
    ∃ found, (db.first p w d s).1 = .ok found ∧
      a.Finds p.series d.IsFirst {t | w.contains t = true} found := by
  obtain ⟨s', hfirst, -⟩ := first_spec hb hs p w d
  exact ⟨_, congrArg Prod.fst hfirst, a.finds_head p.series w d⟩

/-- The time that a combined read of all values meets first. -/
theorem extreme_spec (points : List Point) (d : Direction) :
    ∃ t s', db.extreme points d s = (.ok t, s') ∧ Intact s' ∧
      Archive.Picks d.IsFirst (a.timesOfAll points) t := by
  obtain ⟨rows, hanswers, hmerge⟩ := a.exists_answer points .all d
  have hrows := drainMerged_spec hb (some 1) Reaction.none_intact hmerge hs
  have hs' := drainMerged_intact hb (seriesOf points) .all (some 1) d Reaction.none_intact hs
  refine ⟨rows.head?.map Row.time, _, ?_, hs', ?_⟩
  · have hargs : checkArguments none none (some 1) = .ok (.all, some 1) := rfl
    simp only [extreme, combined, hargs, checked, bind, StateT.bind]
    rcases hcall : db.drainMerged (seriesOf points) .all (some 1) d .none s with ⟨delivery, s'⟩
    rw [hcall] at hrows
    obtain rfl := hrows
    cases rows <;> rfl
  · refine Archive.picks_head (hanswers.ordered.imp fun {x y} h => ?_) fun t => ?_
    · rcases Direction.compareRows_eq_lt.1 h with hlt | ⟨htime, -⟩
      · rw [hlt]
        rfl
      · rw [Direction.compareTimes_eq_eq.2 htime]
        rfl
    · constructor
      · rintro ⟨p, hp, ht⟩
        obtain ⟨e, hget⟩ := Archive.mem_timesOf_iff.1 ht
        exact ⟨⟨p.series, t, e.payload, e.note⟩,
          (hanswers.mem_iff _).2 ⟨List.mem_map_of_mem hp, rfl, hget⟩, rfl⟩
      · rintro ⟨r, hr, rfl⟩
        obtain ⟨hseries, -, hget⟩ := (hanswers.mem_iff r).1 hr
        obtain ⟨p, hp, hid⟩ := List.mem_map.1 hseries
        exact ⟨p, hp, Archive.mem_timesOf_iff.2 ⟨_, hid ▸ hget⟩⟩

/-- The span of all values goes from the first of them to the last. -/
theorem span_spec (points : List Point) :
    ∃ span, (db.span points s).1 = .ok span ∧ Archive.Spans (a.timesOfAll points) span := by
  obtain ⟨first, s₁, hfirst, hs₁, hleast⟩ := extreme_spec hb hs points .ascending
  obtain ⟨last, s₂, hlast, -, hgreatest⟩ := extreme_spec hb hs₁ points .descending
  simp only [span, bind, StateT.bind, hfirst, hlast]
  refine ⟨_, rfl, ?_⟩
  cases first with
  | none => exact .empty hleast
  | some first =>
    cases last with
    | none => exact .empty hgreatest
    | some last => exact .between hleast hgreatest

end

/-! ## The store in memory -/

/-- What the look-ups of a database find in a store. -/
structure LooksUp (db : Database Memory) (m : Memory) : Prop where
  /-- The last value before `t`. -/
  valueBefore : ∀ p t, ∃ found, (db.valueBefore p t m).1 = .ok found ∧
    m.archive.Finds p.series IsGreatest {u | u < t} found
  /-- The first value at `t` or later. -/
  valueAfter : ∀ p t, ∃ found, (db.valueAfter p t m).1 = .ok found ∧
    m.archive.Finds p.series IsLeast {u | t ≤ u} found
  valueAt : ∀ p t, (db.valueAt p t m).1 =
    .ok ((m.archive.get? p.series t).map fun e => ⟨t, e.payload, e.note⟩)
  latestValue : ∀ p, ∃ found, (db.latestValue p m).1 = .ok found ∧
    m.archive.Finds p.series IsGreatest Set.univ found
  /-- The time of the oldest value. -/
  inception : ∀ p, ∃ t, (db.inception p m).1 = .ok t ∧
    Archive.Picks IsLeast (m.archive.timesOf p.series) t
  /-- What is in force at `t`: one entry for each series asked for, and none for any other. -/
  standingAt : ∀ points t, ∃ standing, (db.standingAt points t m).1 = .ok standing ∧
    ∀ id, (id ∈ points.map Point.series → ∃ b, standing.get? id = some b ∧
        m.archive.InForce id t b) ∧
      (id ∉ points.map Point.series → standing.get? id = none)
  /-- The earliest time of several points, and the latest. -/
  extreme : ∀ points d, ∃ t, (db.extreme points d m).1 = .ok t ∧
    Archive.Picks d.IsFirst (m.archive.timesOfAll points) t
  span : ∀ points, ∃ span, (db.span points m).1 = .ok span ∧
    Archive.Spans (m.archive.timesOfAll points) span ∧ ∀ s ∈ span, s.first ≤ s.last

/-- Every look-up finds what the order of the stored times says, for every content of the store, all
points, all times from the first to the last there is and all sizes of chunks. -/
theorem looksUp {db : Database Memory} (hdb : db.OverMemory) {m : Memory}
    (hscans : m.failingScans = 0) : db.LooksUp m := by
  have hb := hdb.readsFrom m.archive
  have hintact : Memory.Intact m.archive m := ⟨hscans, rfl⟩
  constructor
  case valueBefore =>
    intro p t
    obtain ⟨found, hfound, hfinds⟩ := first_finds hb hintact p ⟨none, some t⟩ .descending
    exact ⟨found, hfound, hfinds.congr fun u => by simp [Window.contains]⟩
  case valueAfter =>
    intro p t
    obtain ⟨found, hfound, hfinds⟩ := first_finds hb hintact p ⟨some t, none⟩ .ascending
    exact ⟨found, hfound, hfinds.congr fun u => by simp [Window.contains]⟩
  case valueAt =>
    intro p t
    obtain ⟨found, hfound, hfinds⟩ := first_finds hb hintact p (.single t) .ascending
    have hat := Archive.eq_get?_of_finds (hfinds.congr fun u => Window.contains_single)
    exact hat ▸ hfound
  case latestValue =>
    intro p
    obtain ⟨found, hfound, hfinds⟩ := first_finds hb hintact p .all .descending
    exact ⟨found, hfound, hfinds.congr fun u => by simp⟩
  case inception =>
    intro p
    obtain ⟨found, hfound, hfinds⟩ := first_finds hb hintact p .all .ascending
    refine ⟨found.map Sample.time, ?_, ?_⟩
    · show (db.first p .all .ascending m).1.map (·.map Sample.time) = _
      rw [hfound]
      rfl
    · have hall := (hfinds.congr fun u => by simp : m.archive.Finds p.series _ Set.univ found).1
      rwa [Set.inter_univ] at hall
  case standingAt =>
    intro points t
    obtain ⟨standing, hstanding, -, hget⟩ := standingAt_spec hb points t hintact
    refine ⟨standing, hstanding, fun id => ⟨fun hid => ?_, fun hid => ?_⟩⟩
    · exact ⟨_, (hget id).trans (if_pos hid), m.archive.inForce_standing id t⟩
    · exact (hget id).trans (if_neg hid)
  case extreme =>
    intro points d
    obtain ⟨t, s', hextreme, -, hpicks⟩ := extreme_spec hb hintact points d
    exact ⟨t, congrArg Prod.fst hextreme, hpicks⟩
  case span =>
    intro points
    obtain ⟨span, hspan, hspans⟩ := span_spec hb hintact points
    refine ⟨span, hspan, hspans, ?_⟩
    rintro s rfl
    exact hspans.first_le_last

/-- A series with values at both ends of time and one between them, another with a value at the end
alone and one with none, read one row at a time. -/
theorem looksUp_ends_of_time :
    let m : Memory := { Memory.new with
      archive := Archive.empty.putAll
        [(1, ⟨Int64.maxValue, .state 3, none⟩), (1, ⟨0, .state 2, some "between"⟩),
          (1, ⟨Int64.minValue, .state 1, none⟩), (2, ⟨Int64.maxValue, .state 4, none⟩)] }
    let db : Database Memory := ⟨Memory.backend, .all, 1, 1, by decide, by decide⟩
    let p : Point := ⟨7, 1⟩
    db.LooksUp m ∧
      (db.valueBefore p Int64.minValue m).1.toOption = some none ∧
      (db.valueBefore p Int64.maxValue m).1.toOption = some (some ⟨0, .state 2, some "between"⟩) ∧
      (db.valueAfter p Int64.maxValue m).1.toOption = some (some ⟨Int64.maxValue, .state 3, none⟩) ∧
      (db.valueAt p Int64.maxValue m).1.toOption = some (some ⟨Int64.maxValue, .state 3, none⟩) ∧
      (db.standingAt [⟨8, 2⟩, p, ⟨9, 3⟩] Int64.maxValue m).1.toOption.map SortedMap.values =
        some [⟨1, Int64.maxValue, some (.state 3), none⟩, ⟨2, Int64.maxValue, some (.state 4), none⟩,
          .vacant 3 Int64.maxValue] ∧
      (db.span [⟨8, 2⟩, p] m).1.toOption = some (some ⟨Int64.minValue, Int64.maxValue⟩) := by
  intro m db p
  have hdb : db.OverMemory := .inl rfl
  have hscans : m.failingScans = 0 := rfl
  exact ⟨looksUp hdb hscans, by decide +kernel, by decide +kernel, by decide +kernel,
    by decide +kernel, by decide +kernel, by decide +kernel⟩

end Database

end Historian
