import Historian.Database.Rows

/-!
# Reads with edges

A wide read adds to the rows of a window the value just before it and the first one after it.  A
bookend read reports for every series what is in force at both ends of the window: an entry at
exactly its start, the rows inside, and an entry at exactly its stop.
-/

set_option autoImplicit false

namespace Historian

/-- What a wide read brought: the value just before the window, the rows in it, and the first value
after it. -/
structure WideRead where
  first : Option Row
  rows : List Row
  last : Option Row
  failure : Option Failure
  deriving DecidableEq

/-- One report of a bookend read. -/
inductive BookendEvent
  /-- The entry at the start; it is synthesized unless a value is stored at exactly that time. -/
  | first (entry : Bookend) (synthesized : Bool)
  | row (r : Row)
  /-- The entry at the stop. -/
  | last (entry : Bookend) (synthesized : Bool)
  deriving DecidableEq

/-- What a bookend read reported. -/
structure BookendRead where
  events : List BookendEvent
  failure : Option Failure
  deriving DecidableEq

namespace BookendRead

/-- The rows among the reports. -/
def rows (r : BookendRead) : List Row :=
  r.events.filterMap fun
    | .row r => some r
    | _ => none

end BookendRead

/-- What is in force, by series. -/
abbrev Standing := SortedMap SeriesId Bookend

namespace Standing

/-- Takes up rows one by one.  A row that is newer than what its series has in force replaces it and
is reported; one that is not has been reported as the start entry. -/
def follow : List Row → Standing → List Row × Standing
  | [], standing => ([], standing)
  | r :: rest, standing =>
    if (standing.get? r.series).all fun b => b.time < r.time then
      let (rows, standing) := follow rest (standing.insert r.series (.ofRow r))
      (r :: rows, standing)
    else follow rest standing

/-- The report at the start of the window. -/
def opening (start : Timestamp) (b : Bookend) : BookendEvent :=
  .first (b.movedTo start) (b.payload.isNone || b.time ≠ start)

/-- The report at the stop of the window. -/
def closing (stop : Timestamp) (b : Bookend) : BookendEvent := .last (b.movedTo stop) true

end Standing

namespace Database

variable {σ : Type}

/-- What is in force at `t`: the last value at `t` or before it, or a vacant entry. -/
def standingAt (db : Database σ) (points : List Point) (t : Timestamp) :
    StateM σ (Except Failure Standing) := do
  let r ← db.perPoint points none (Timestamp.next? t) (some 1) .descending .none
  return r.toExcept.map fun rows =>
    let found : Standing := .ofList (rows.map fun r => (r.series, .ofRow r))
    points.foldl
      (fun m p => if m.contains p.series then m else m.insert p.series (.vacant p.series t)) found

/-- The rows of a window with the values around it. -/
def wide (db : Database σ) (p : Point) (start stop : Timestamp) : StateM σ WideRead := do
  match Window.new (some start) (some stop) with
  | .error e => return ⟨none, [], none, some e⟩
  | .ok w =>
    match ← db.valueBefore p start with
    | .error e => return ⟨none, [], none, some e⟩
    | .ok before =>
      let first := before.map (·.inSeries p.series)
      let body ← db.drain p.series w none .ascending .none 0
      match body.failure with
      | some e => return ⟨first, body.rows, none, some e⟩
      | none =>
        match ← db.valueAfter p stop with
        | .error e => return ⟨first, body.rows, none, some e⟩
        | .ok after => return ⟨first, body.rows, after.map (·.inSeries p.series), none⟩

/-- Reports one series after the other. -/
def bookendsInTurn (db : Database σ) (w : Window) (start stop : Timestamp) (limit : Option Nat) :
    List SeriesId → Standing → StateM σ BookendRead
  | [], _ => pure ⟨[], none⟩
  | series :: rest, standing => do
    let opening := ((standing.get? series).map (Standing.opening start)).toList
    let body ← db.drain series w limit .ascending .none 0
    let (rows, standing) := standing.follow body.rows
    let reported := opening ++ rows.map .row
    match body.failure with
    | some e => return ⟨reported, some e⟩
    | none =>
      let closing := ((standing.get? series).map (Standing.closing stop)).toList
      let others ← db.bookendsInTurn w start stop limit rest standing
      return ⟨reported ++ closing ++ others.events, others.failure⟩

/-- A bookend read after its arguments have been checked; without points there is nothing to do. -/
def bookendRead (points : List Point) (args : Except Failure (Window × Option Nat))
    (read : Window → Option Nat → StateM σ BookendRead) : StateM σ BookendRead :=
  match args with
  | .error e => pure ⟨[], some e⟩
  | .ok (w, l) => if points.isEmpty then pure ⟨[], none⟩ else read w l

/-- Bookends and rows point by point, at most `limit` rows read of each. -/
def bookendsPerPoint (db : Database σ) (points : List Point) (start stop : Timestamp)
    (limit : Option Int) : StateM σ BookendRead :=
  bookendRead points (checkArguments (some start) (some stop) limit) fun w l => do
    match ← db.standingAt points start with
    | .error e => return ⟨[], some e⟩
    | .ok standing => db.bookendsInTurn w start stop l (seriesOf points) standing

/-- All opening bookends, the rows of all points by time and then series, at most `limit` rows read
in all, then all closing bookends. -/
def bookendsCombined (db : Database σ) (points : List Point) (start stop : Timestamp)
    (limit : Option Int) : StateM σ BookendRead :=
  bookendRead points (checkArguments (some start) (some stop) limit) fun w l => do
    match ← db.standingAt points start with
    | .error e => return ⟨[], some e⟩
    | .ok standing =>
      let opening := standing.values.map (Standing.opening start)
      let body ← db.drainMerged (seriesOf points) w l .ascending .none
      let (rows, standing) := standing.follow body.rows
      let reported := opening ++ rows.map .row
      match body.failure with
      | some e => return ⟨reported, some e⟩
      | none => return ⟨reported ++ standing.values.map (Standing.closing stop), none⟩

end Database

end Historian
