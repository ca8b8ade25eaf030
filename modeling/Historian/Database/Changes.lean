import Historian.Database

/-!
# Saving and deleting

Deletions check their window first, then whether the backend declared the capability, and only then
reach the backend.
-/

set_option autoImplicit false

namespace Historian

/-- Cuts a list into pieces of `n`, the last of which may be shorter. -/
def chunksOf {α : Type} (n : Nat) (xs : List α) : List (List α) :=
  if _h : xs = [] ∨ n = 0 then []
  else xs.take n :: chunksOf n (xs.drop n)
termination_by xs.length
decreasing_by
  have : 0 < xs.length := by
    cases xs with
    | nil => simp at *
    | cons => simp
  simp only [List.length_drop]
  omega

namespace Database

variable {σ : Type}

/-- A backend operation as a call to the database. -/
def call {α : Type} (action : Action σ α) : StateM σ (Except Failure α) := fun s =>
  let (r, s) := action s
  (r.mapError .ofBackend, s)

/-- A backend operation that needs a capability. -/
def callWith {α : Type} (db : Database σ) (c : Capability) (action : Action σ α) :
    StateM σ (Except Failure α) := fun s =>
  match db.require c with
  | .error e => (.error e, s)
  | .ok () => call action s

/-- Stores a sample, and gives back what was stored. -/
def save (db : Database σ) (p : Point) (v : Sample) : StateM σ (Except Failure Sample) :=
  call (db.backend.insert p.series v)

/-- Stores batches until one fails, and counts the samples. -/
def saveBatches (db : Database σ) :
    List (List (SeriesId × Sample)) → (saved : Nat) → StateM σ (Except Failure Nat)
  | [], saved => fun s => (.ok saved, s)
  | batch :: rest, saved => fun s =>
    match db.backend.insertBatch batch s with
    | (.error e, s) => (.error (.ofBackend e), s)
    | (.ok (), s) => db.saveBatches rest (saved + batch.length) s

/-- Stores samples in batches of `chunk`, and counts them. -/
def saveBatch (db : Database σ) (rows : List (SeriesId × Sample)) (chunk : Nat) :
    StateM σ (Except Failure Nat) :=
  if chunk = 0 then pure (.error (.invalidArgument .zeroChunk))
  else db.saveBatches (chunksOf chunk rows) 0

/-- Deletes a window of a point. -/
def deleteBetween (db : Database σ) (p : Point) (start stop : Option Timestamp) :
    StateM σ (Except Failure (Option Nat)) :=
  match Window.new start stop with
  | .error e => pure (.error e)
  | .ok w => db.callWith .delete (db.backend.deleteWithin p.series w)

/-- Deletes a point's values before `stop`. -/
def deleteBefore (db : Database σ) (p : Point) (stop : Timestamp) :
    StateM σ (Except Failure (Option Nat)) :=
  db.deleteBetween p none (some stop)

/-- Deletes a point's value at `t`. -/
def deleteAt (db : Database σ) (p : Point) (t : Timestamp) :
    StateM σ (Except Failure (Option Nat)) :=
  db.deleteBetween p (some t) (Timestamp.next? t)

/-- Deletes all of a point's values. -/
def deleteAllOf (db : Database σ) (p : Point) : StateM σ (Except Failure (Option Nat)) :=
  db.deleteBetween p none none

/-- Deletes everything. -/
def deleteAll (db : Database σ) : StateM σ (Except Failure (Option Nat)) :=
  db.callWith .deleteAll db.backend.deleteAll

/-- Deletes every value before `stop`. -/
def deleteAllBefore (db : Database σ) (stop : Timestamp) :
    StateM σ (Except Failure (Option Nat)) :=
  db.callWith .deleteAllBefore (db.backend.deleteAllBefore stop)

/-- Deletes the values of series that are not in `live`. -/
def deleteOrphaned (db : Database σ) (live : List SeriesId) :
    StateM σ (Except Failure (Option Nat)) :=
  db.callWith .deleteOrphaned (db.backend.deleteOrphaned live)

/-- Hands retention to the backend. -/
def setRetention (db : Database σ) (p : Period) : StateM σ (Except Failure Unit) :=
  db.callWith .retentionPolicy (db.backend.setRetention p)

/-- The series with the most values. -/
def topSeries (db : Database σ) (limit : Nat) : StateM σ (Except Failure (List SeriesCount)) :=
  db.callWith .topSeries (db.backend.topSeries limit)

end Database

end Historian
