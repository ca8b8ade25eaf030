import Historian.Proofs.Read.Bookends
import Historian.Proofs.Read.Changing
import Historian.Proofs.Read.FailingReads
import Historian.Proofs.Read.WideReads

/-!
# Reads that are refused

A read of a store in memory of which no scan fails has an answer, unless it is refused for its
arguments: a window whose stop comes before its start, or a negative limit.

* `AtMostRefused` — a call has not failed, or was refused for its arguments.
* `Database.Read.run_atMostRefused` — this holds of a read of rows also while the store changes.
* `Inquiry.run_atMostRefused` — and of every read while it does not.
-/

set_option autoImplicit false

namespace Historian

variable {α β : Type}

/-- There is no failure, or it is that the call was refused for its arguments. -/
def AtMostRefused (failure : Option Failure) : Prop :=
  ∀ e, failure = some e → e.isInvalidArgument = true

theorem AtMostRefused.none : AtMostRefused none := by
  rintro _ ⟨⟩

theorem AtMostRefused.of_eq_none {failure : Option Failure} (h : failure = Option.none) :
    AtMostRefused failure := h ▸ .none

/-- What an answer has failed with. -/
def failureOf : Except Failure α → Option Failure
  | .ok _ => none
  | .error e => some e

@[simp] theorem failureOf_map (x : Except Failure α) (f : α → β) :
    failureOf (x.map f) = failureOf x := by
  cases x <;> rfl

@[simp] theorem Delivery.failureOf_toExcept (d : Delivery) : failureOf d.toExcept = d.failure := by
  rw [toExcept]
  cases d.failure <;> rfl

@[simp] theorem Reading.failure_ofExcept (report : α → List Report) (x : Except Failure α) :
    (ofExcept report x).failure = failureOf x := by
  cases x <;> rfl

/-! ## Arguments -/

theorem Window.new_atMostRefused (start stop : Option Timestamp) :
    AtMostRefused (failureOf (Window.new start stop)) := by
  intro e he
  cases hnew : Window.new start stop with
  | ok w =>
    rw [hnew] at he
    cases he
  | error e' =>
    rw [hnew] at he
    obtain rfl : e' = e := Option.some.inj he
    obtain ⟨_, _, -, -, -, rfl⟩ := Window.new_eq_error_iff.1 hnew
    rfl

/-- Arguments that are checked one after the other. -/
theorem AtMostRefused.bind {x : Except Failure α} {f : α → Except Failure β}
    (hx : AtMostRefused (failureOf x)) (hf : ∀ a, AtMostRefused (failureOf (f a))) :
    AtMostRefused (failureOf (x >>= f)) := by
  cases x with
  | error e => exact hx
  | ok a => exact hf a

namespace Database

theorem checkLimit_atMostRefused (limit : Option Int) :
    AtMostRefused (failureOf (checkLimit limit)) := by
  cases limit with
  | none => exact .none
  | some l =>
    rw [checkLimit]
    split
    · rintro _ ⟨⟩
      rfl
    · exact .none

theorem checkArguments_atMostRefused (start stop : Option Timestamp) (limit : Option Int) :
    AtMostRefused (failureOf (checkArguments start stop limit)) :=
  .bind (Window.new_atMostRefused start stop) fun _ =>
    .bind (checkLimit_atMostRefused limit) fun _ => .none

/-! ## Reads of an intact store -/

section

variable {σ : Type} {db : Database σ} {a : Archive} {Intact : σ → Prop} {s : σ}

theorem checked_atMostRefused {ι : Type} {args : Except Failure ι} {read : ι → StateM σ Delivery}
    (hargs : AtMostRefused (failureOf args)) (hread : ∀ i, (read i s).1.failure = none) :
    AtMostRefused (checked args read s).1.failure := by
  cases args with
  | error e => exact hargs
  | ok i => exact .of_eq_none (hread i)

theorem bookendRead_atMostRefused (points : List Point) {start stop : Timestamp} {limit : Option Int}
    {read : Window → Option Nat → StateM σ BookendRead}
    (hread : ∀ w l, checkArguments (some start) (some stop) limit = .ok (w, l) →
      w = ⟨some start, some stop⟩ →
      (bookendRead points (checkArguments (some start) (some stop) limit) read s).1.failure = none) :
    AtMostRefused
      (bookendRead points (checkArguments (some start) (some stop) limit) read s).1.failure := by
  have hargs := checkArguments_atMostRefused (some start) (some stop) limit
  cases hcheck : checkArguments (some start) (some stop) limit with
  | error e =>
    rw [hcheck] at hargs
    exact hargs
  | ok args =>
    obtain ⟨w, l⟩ := args
    rw [← hcheck]
    exact .of_eq_none (hread w l hcheck (ok_of_checkArguments hcheck).1)

variable (hb : db.backend.ReadsFrom a Intact) (hs : Intact s)

include hb hs

theorem drain_failure (series : SeriesId) (w : Window) (limit : Option Nat) (d : Direction) :
    (db.drain series w limit d .none 0 s).1.failure = none :=
  congrArg Delivery.failure (drain_spec hb series w limit d 0 hs).1

theorem collect_atMostRefused (p : Point) {args : Except Failure (Window × Option Nat)}
    (hargs : AtMostRefused (failureOf args)) (d : Direction) :
    AtMostRefused (failureOf (db.collect p args d s).1) := by
  have hread : AtMostRefused
      (checked args (fun x => db.drain p.series x.1 x.2 d .none 0) s).1.failure :=
    checked_atMostRefused hargs fun x => drain_failure hb hs p.series x.1 x.2 d
  show AtMostRefused (failureOf ((checked args _ s).1.toExcept.map _))
  rwa [failureOf_map, Delivery.failureOf_toExcept]

theorem first_failure (p : Point) (w : Window) (d : Direction) :
    failureOf (db.first p w d s).1 = none := by
  obtain ⟨s', hfirst, -⟩ := first_spec hb hs p w d
  rw [hfirst]
  rfl

theorem latest_atMostRefused (p : Point) (limit : Int) :
    AtMostRefused (failureOf (db.latest p limit s).1) :=
  collect_atMostRefused hb hs p
    (.bind (checkLimit_atMostRefused _) fun _ => .of_eq_none rfl) _

theorem latestBefore_atMostRefused (p : Point) (stop : Timestamp) (limit : Int) :
    AtMostRefused (failureOf (db.latestBefore p stop limit s).1) :=
  collect_atMostRefused hb hs p
    (.bind (checkLimit_atMostRefused _) fun _ =>
      .bind (Window.new_atMostRefused _ _) fun _ => .of_eq_none rfl) _

theorem range_atMostRefused (p : Point) (start : Timestamp) (stop : Option Timestamp) :
    AtMostRefused (failureOf (db.range p start stop s).1) :=
  collect_atMostRefused hb hs p
    (.bind (Window.new_atMostRefused _ _) fun _ => .of_eq_none rfl) _

theorem count_atMostRefused (p : Point) (start stop : Option Timestamp) :
    AtMostRefused (failureOf (db.count p start stop s).1) := by
  show AtMostRefused (failureOf ((db.collect p _ .ascending s).1.map List.length))
  rw [failureOf_map]
  exact collect_atMostRefused hb hs p
    (.bind (Window.new_atMostRefused _ _) fun _ => .of_eq_none rfl) _

theorem inception_failure (p : Point) : failureOf (db.inception p s).1 = none := by
  show failureOf ((db.first p .all .ascending s).1.map _) = none
  rw [failureOf_map, first_failure hb hs]

theorem perPoint_atMostRefused (points : List Point) (start stop : Option Timestamp)
    (limit : Option Int) (d : Direction) :
    AtMostRefused (db.perPoint points start stop limit d .none s).1.failure :=
  checked_atMostRefused (checkArguments_atMostRefused start stop limit) fun (w, l) =>
    congrArg Delivery.failure
      (deliverInTurn_spec (fun id before _ hs => drain_spec hb id w l d before hs) 0 hs).1

theorem combined_atMostRefused (points : List Point) (start stop : Option Timestamp)
    (limit : Option Int) (d : Direction) :
    AtMostRefused (db.combined points start stop limit d .none s).1.failure :=
  checked_atMostRefused (checkArguments_atMostRefused start stop limit) fun (w, l) => by
    obtain ⟨_, -, hmerge⟩ := a.exists_answer points w d
    exact congrArg Delivery.failure (drainMerged_spec hb l Reaction.none_intact hmerge hs)

theorem extreme_atMostRefused (points : List Point) (d : Direction) :
    AtMostRefused (failureOf (db.extreme points d s).1) := by
  show AtMostRefused (failureOf ((db.combined points none none (some 1) d .none s).1.toExcept.map _))
  rw [failureOf_map, Delivery.failureOf_toExcept]
  exact combined_atMostRefused hb hs points _ _ _ _

theorem span_failure (points : List Point) : failureOf (db.span points s).1 = none := by
  obtain ⟨span, hspan, -⟩ := span_spec hb hs points
  rw [hspan]
  rfl

theorem standingAt_failure (points : List Point) (t : Timestamp) :
    failureOf (db.standingAt points t s).1 = none := by
  obtain ⟨standing, hstanding, -⟩ := standingAt_spec hb points t hs
  rw [hstanding]
  rfl

theorem wide_atMostRefused (p : Point) (start stop : Timestamp) :
    AtMostRefused (db.wide p start stop s).1.failure := by
  have hargs := Window.new_atMostRefused (some start) (some stop)
  cases hnew : Window.new (some start) (some stop) with
  | error e =>
    rw [hnew] at hargs
    simp only [wide, hnew]
    exact hargs
  | ok w => exact .of_eq_none (congrArg WideRead.failure (wide_spec hb hs p hnew))

theorem bookendsPerPoint_atMostRefused (points : List Point) (start stop : Timestamp)
    (limit : Option Int) : AtMostRefused (db.bookendsPerPoint points start stop limit s).1.failure :=
  bookendRead_atMostRefused points fun w l hargs hw => by
    subst hw
    exact congrArg BookendRead.failure (bookendsPerPoint_spec hb points hargs hs)

theorem bookendsCombined_atMostRefused (points : List Point) (start stop : Timestamp)
    (limit : Option Int) : AtMostRefused (db.bookendsCombined points start stop limit s).1.failure :=
  bookendRead_atMostRefused points fun w l hargs hw => by
    subst hw
    obtain ⟨rows, hrows, -⟩ := a.exists_answer points ⟨some start, some stop⟩ .ascending
    exact congrArg BookendRead.failure (bookendsCombined_spec hb points hargs hrows hs)

end

/-! ## Streams -/

/-- A stream that is asked so many times is one that is driven while nothing changes. -/
theorem pulled_eq_drive (db : Database Memory) (calls : Nat)
    (opened : StateM Memory (Except Failure Stream)) (m : Memory) :
    (db.pulled calls opened m).1 = db.drive (fun _ => []) calls opened m := by
  simp only [pulled, drive, bind, StateT.bind]
  rcases opened m with ⟨answer, s⟩
  cases answer <;> rfl

theorem Read.run_atMostRefused {db : Database Memory} (hdb : db.OverMemory) {m : Memory}
    (hscans : m.failingScans = 0) (read : Read) (changes : Nat → List Memory.Change) (calls : Nat) :
    AtMostRefused (read.run db changes calls m).failure := by
  have hargs := checkArguments_atMostRefused read.query.start read.query.stop read.query.limit
  cases hcheck : checkArguments read.query.start read.query.stop read.query.limit with
  | error e =>
    rw [hcheck] at hargs
    rw [Read.run_of_error hcheck]
    exact hargs
  | ok args =>
    obtain ⟨rows, _, hrun, -⟩ := Read.run_tracked hdb hscans changes calls hcheck
    rw [hrun]
    exact .none

end Database

/-! ## Every read -/

namespace Inquiry

theorem returned_atMostRefused {σ : Type} {x : StateM σ (Except Failure α)} {s : σ}
    (h : AtMostRefused (failureOf (x s).1)) (report : α → List Report) :
    AtMostRefused (Reading.ofExcept report (x s).1).failure := by
  rwa [Reading.failure_ofExcept]

/-- A store in memory of which no scan fails answers every read that is not refused. -/
theorem run_atMostRefused {db : Database Memory} (hdb : db.OverMemory) {m : Memory}
    (hscans : m.failingScans = 0) (q : Inquiry) : AtMostRefused (q.run db m).1.failure := by
  have hb := hdb.readsFrom m.archive
  have hs : Memory.Intact m.archive m := ⟨hscans, rfl⟩
  cases q with
  | latest p limit => exact returned_atMostRefused (db.latest_atMostRefused hb hs p limit) _
  | latestBefore p stop limit =>
    exact returned_atMostRefused (db.latestBefore_atMostRefused hb hs p stop limit) _
  | latestValue p => exact returned_atMostRefused (.of_eq_none (db.first_failure hb hs p _ _)) _
  | valueBefore p t => exact returned_atMostRefused (.of_eq_none (db.first_failure hb hs p _ _)) _
  | valueAfter p t => exact returned_atMostRefused (.of_eq_none (db.first_failure hb hs p _ _)) _
  | valueAt p t => exact returned_atMostRefused (.of_eq_none (db.first_failure hb hs p _ _)) _
  | range p start stop => exact returned_atMostRefused (db.range_atMostRefused hb hs p start stop) _
  | rangeWith p start stop =>
    exact Database.checked_atMostRefused (Window.new_atMostRefused _ _) fun w =>
      db.drain_failure hb hs p.series w _ _
  | count p start stop => exact returned_atMostRefused (db.count_atMostRefused hb hs p start stop) _
  | inception p => exact returned_atMostRefused (.of_eq_none (db.inception_failure hb hs p)) _
  | perPoint points start stop limit d => exact db.perPoint_atMostRefused hb hs points _ _ _ _
  | combined points start stop limit d => exact db.combined_atMostRefused hb hs points _ _ _ _
  | extreme points d => exact returned_atMostRefused (db.extreme_atMostRefused hb hs points d) _
  | span points => exact returned_atMostRefused (.of_eq_none (db.span_failure hb hs points)) _
  | standingAt points t =>
    exact returned_atMostRefused (.of_eq_none (db.standingAt_failure hb hs points t)) _
  | wide p start stop => exact db.wide_atMostRefused hb hs p start stop
  | bookendsPerPoint points start stop limit =>
    exact db.bookendsPerPoint_atMostRefused hb hs points start stop limit
  | bookendsCombined points start stop limit =>
    exact db.bookendsCombined_atMostRefused hb hs points start stop limit
  | streamPerPoint points start stop limit d calls =>
    have hdriven := Database.Read.run_atMostRefused hdb hscans
      (.streamPerPoint ⟨points, start, stop, limit, d⟩) (fun _ => []) calls
    rw [Database.Read.run, ← Database.pulled_eq_drive] at hdriven
    exact hdriven
  | streamCombined points start stop limit d calls =>
    have hdriven := Database.Read.run_atMostRefused hdb hscans
      (.streamCombined ⟨points, start, stop, limit, d⟩) (fun _ => []) calls
    rw [Database.Read.run, ← Database.pulled_eq_drive] at hdriven
    exact hdriven

end Inquiry

end Historian
