import Historian.Database

/-!
# Reading rows

Every read is made of cursors, one for each distinct series of the points asked for, in ascending
order of the series.  `drain` empties one cursor, `perPoint` one after the other, and `combined`
merges them by time and then series.

Arguments are checked before the backend is asked: first the window, then the limit; only
`latestBefore` has them the other way round.
-/

set_option autoImplicit false

namespace Historian

/-- The earliest and the latest time of some values. -/
structure Span where
  first : Timestamp
  last : Timestamp
  deriving DecidableEq

namespace Database

variable {σ : Type}

/-- How often a source may be asked: as often as the limit says, or else until it has had a chance
to deliver every time of its windows and to end. -/
def budget (limit : Option Nat) (times : Nat) : Nat := limit.getD (times + 1)

/-- Delivers a window of one series, at most `limit` values of it. -/
def drain (db : Database σ) (series : SeriesId) (w : Window) (limit : Option Nat) (d : Direction)
    (react : Reaction σ) (before : Nat) : StateM σ Delivery :=
  deliverRows (Cursor.next db.backend) react (budget limit w.width) before
    (Cursor.onWindow series w (db.limitedChunk limit) d)

/-- Delivers a window of each series in turn, at most `limit` values of each. -/
def drainInTurn (db : Database σ) (series : List SeriesId) (w : Window) (limit : Option Nat)
    (d : Direction) (react : Reaction σ) : StateM σ Delivery :=
  deliverInTurn (fun s before => db.drain s w limit d react before) 0 series

/-- Delivers a window of all series as one sequence, at most `limit` values in all. -/
def drainMerged (db : Database σ) (series : List SeriesId) (w : Window) (limit : Option Nat)
    (d : Direction) (react : Reaction σ) : StateM σ Delivery :=
  let chunk := db.combinedChunk limit series.length
  deliverRows (Merge.next d.compareRows (Cursor.next db.backend)) react
    (budget limit (series.length * w.width)) 0
    (Merge.new (series.map fun s => Cursor.onWindow s w chunk d))

/-- A read of rows after its arguments have been checked. -/
def checked {α : Type} (args : Except Failure α) (read : α → StateM σ Delivery) : StateM σ Delivery :=
  match args with
  | .error e => pure (.refused e)
  | .ok a => read a

/-- A window and a limit, checked in this order. -/
def checkArguments (start stop : Option Timestamp) (limit : Option Int) :
    Except Failure (Window × Option Nat) := do
  let w ← Window.new start stop
  let l ← checkLimit limit
  return (w, l)

/-- The values of each point in a window, point by point, at most `limit` of each. -/
def perPoint (db : Database σ) (points : List Point) (start stop : Option Timestamp)
    (limit : Option Int) (d : Direction) (react : Reaction σ) : StateM σ Delivery :=
  checked (checkArguments start stop limit) fun (w, l) =>
    db.drainInTurn (seriesOf points) w l d react

/-- The values of all points in a window, by time and then series, at most `limit` in all. -/
def combined (db : Database σ) (points : List Point) (start stop : Option Timestamp)
    (limit : Option Int) (d : Direction) (react : Reaction σ) : StateM σ Delivery :=
  checked (checkArguments start stop limit) fun (w, l) =>
    db.drainMerged (seriesOf points) w l d react

/-- The values of one point in a window, oldest first, handed over one by one. -/
def rangeWith (db : Database σ) (p : Point) (start stop : Timestamp) (react : Reaction σ) :
    StateM σ Delivery :=
  checked (Window.new (some start) (some stop)) fun w =>
    db.drain p.series w none .ascending react 0

/-! ## Reads of one point -/

/-- The rows of a finished read, without their series. -/
def samples (read : StateM σ Delivery) : StateM σ (Except Failure (List Sample)) := do
  let d ← read
  return d.toExcept.map (·.map Row.sample)

/-- The values of one point in a checked window. -/
def collect (db : Database σ) (p : Point) (args : Except Failure (Window × Option Nat))
    (d : Direction) : StateM σ (Except Failure (List Sample)) :=
  samples (checked args fun (w, l) => db.drain p.series w l d .none 0)

/-- Up to `limit` values, newest first. -/
def latest (db : Database σ) (p : Point) (limit : Int) : StateM σ (Except Failure (List Sample)) :=
  db.collect p (do let l ← checkLimit (some limit); return (Window.all, l)) .descending

/-- Up to `limit` values before `stop`, newest first. -/
def latestBefore (db : Database σ) (p : Point) (stop : Timestamp) (limit : Int) :
    StateM σ (Except Failure (List Sample)) :=
  db.collect p
    (do let l ← checkLimit (some limit)
        let w ← Window.new none (some stop)
        return (w, l))
    .descending

/-- The values in a window, oldest first. -/
def range (db : Database σ) (p : Point) (start : Timestamp) (stop : Option Timestamp) :
    StateM σ (Except Failure (List Sample)) :=
  db.collect p (do let w ← Window.new (some start) stop; return (w, none)) .ascending

/-- The number of values in a window. -/
def count (db : Database σ) (p : Point) (start stop : Option Timestamp) :
    StateM σ (Except Failure Nat) := do
  let r ← db.collect p (do let w ← Window.new start stop; return (w, none)) .ascending
  return r.map List.length

/-- The first value of a window in the given direction. -/
def first (db : Database σ) (p : Point) (w : Window) (d : Direction) :
    StateM σ (Except Failure (Option Sample)) := do
  let r ← db.collect p (.ok (w, some 1)) d
  return r.map List.head?

/-- The newest value. -/
def latestValue (db : Database σ) (p : Point) : StateM σ (Except Failure (Option Sample)) :=
  db.first p .all .descending

/-- The last value before `t`. -/
def valueBefore (db : Database σ) (p : Point) (t : Timestamp) :
    StateM σ (Except Failure (Option Sample)) :=
  db.first p ⟨none, some t⟩ .descending

/-- The first value at `t` or later. -/
def valueAfter (db : Database σ) (p : Point) (t : Timestamp) :
    StateM σ (Except Failure (Option Sample)) :=
  db.first p ⟨some t, none⟩ .ascending

/-- The value at `t`. -/
def valueAt (db : Database σ) (p : Point) (t : Timestamp) :
    StateM σ (Except Failure (Option Sample)) :=
  db.first p (.single t) .ascending

/-- The time of the oldest value. -/
def inception (db : Database σ) (p : Point) : StateM σ (Except Failure (Option Timestamp)) := do
  let r ← db.first p .all .ascending
  return r.map (·.map Sample.time)

/-! ## Extremes of several points -/

/-- The time that a combined read of all values meets first. -/
def extreme (db : Database σ) (points : List Point) (d : Direction) :
    StateM σ (Except Failure (Option Timestamp)) := do
  let r ← db.combined points none none (some 1) d .none
  return r.toExcept.map fun rows => rows.head?.map Row.time

/-- The earliest and the latest time. -/
def span (db : Database σ) (points : List Point) :
    StateM σ (Except Failure (Option Span)) := do
  match ← db.extreme points .ascending with
  | .error e => return .error e
  | .ok first =>
    match ← db.extreme points .descending with
    | .error e => return .error e
    | .ok last =>
      return .ok (match first, last with
        | some first, some last => some ⟨first, last⟩
        | _, _ => none)

end Database

end Historian
