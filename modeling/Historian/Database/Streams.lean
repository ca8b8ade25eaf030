import Historian.Database.Rows

/-!
# Opening streams

A stream reads like `perPoint` or `combined`, at its user's pace.  A stream with limit zero needs
nothing from the backend; every other one takes a lease, after its arguments have been checked.
-/

set_option autoImplicit false

namespace Historian.Database

variable {σ : Type}

/-- Opens a stream over the cursors of some points, each allowed up to the limit. -/
def openStream (db : Database σ) (points : List Point) (start stop : Option Timestamp)
    (limit : Option Int) (d : Direction) (body : List LimitedCursor → StreamBody)
    (total : Option Nat → Option Nat) : StateM σ (Except Failure Stream) := fun s =>
  match checkArguments start stop limit with
  | .error e => (.error e, s)
  | .ok (w, l) =>
    if l = some 0 then (.ok .empty, s)
    else
      let cursors := (seriesOf points).map fun series =>
        (⟨.onWindow series w (db.limitedChunk l) d, l⟩ : LimitedCursor)
      match db.backend.openLease s with
      | (.error e, s) => (.error (.ofBackend e), s)
      | (.ok lease, s) => (.ok (.new (body cursors) lease (total l)), s)

/-- Streams point by point, at most `limit` values of each. -/
def streamPerPoint (db : Database σ) (points : List Point) (start stop : Option Timestamp)
    (limit : Option Int) (d : Direction) : StateM σ (Except Failure Stream) :=
  db.openStream points start stop limit d .inTurn fun _ => none

/-- Streams all points by time and then series, at most `limit` values in all. -/
def streamCombined (db : Database σ) (points : List Point) (start stop : Option Timestamp)
    (limit : Option Int) (d : Direction) : StateM σ (Except Failure Stream) :=
  db.openStream points start stop limit d (fun cursors => .merged d (.new cursors)) id

end Historian.Database
