import Historian.Backend

/-!
# Cursors: one series, a chunk at a time

A `Cursor` delivers the values of one series in a window.  When its buffer is empty it scans for the
next chunk and moves the window past the last value it was given, so no time is fetched twice.  It
ends when a scan brings nothing, for a short chunk does not prove that nothing is left; a failing
scan is reported once and ends it too.

The store may change between calls: a cursor keeps no view of it but the fetched chunk.
-/

set_option autoImplicit false

namespace Historian

/-- The answer of a source that is asked for its next item. -/
inductive Pulled (α : Type)
  | value (x : α)
  | failure (cause : Failure)
  | ended
  deriving DecidableEq

/-- A read of one series: the window that is still to be fetched, the most values of one fetch, the
values fetched and not delivered yet, and the number of scans asked for.  An exhausted cursor
fetches nothing more. -/
structure Cursor where
  series : SeriesId
  window : Window
  chunk : Nat
  direction : Direction
  buffer : List Row
  exhausted : Bool
  fetches : Nat
  deriving DecidableEq

namespace Cursor

/-- A cursor that has fetched nothing. -/
def onWindow (series : SeriesId) (window : Window) (chunk : Nat) (direction : Direction) : Cursor :=
  ⟨series, window, chunk, direction, [], false, 0⟩

/-- A cursor over a window that has not been checked. -/
def start (series : SeriesId) (start stop : Option Timestamp) (chunk : Nat)
    (direction : Direction) : Except Failure Cursor :=
  if chunk = 0 then .error (.invalidArgument .zeroChunk)
  else (Window.new start stop).map fun w => onWindow series w chunk direction

/-- The scan that fetches the next chunk. -/
def request (c : Cursor) : Scan := ⟨[c.series], c.window, some c.chunk, c.direction⟩

/-- Takes in the rows of a chunk. -/
def receive (c : Cursor) (rows : List Row) : Cursor :=
  let c := { c with buffer := rows }
  match rows.getLast? with
  | none => { c with exhausted := true }
  | some last =>
    match c.direction with
    | .ascending =>
      match Timestamp.next? last.time with
      | some next => { c with window := { c.window with start := some next } }
      | none => { c with exhausted := true }
    | .descending => { c with window := { c.window with stop := some last.time } }

variable {σ : Type}

/-- Fetches a chunk if the buffer is empty and there may be more. -/
def fill (b : Backend σ) (c : Cursor) : StateM σ (Option Failure × Cursor) := fun s =>
  if c.buffer ≠ [] ∨ c.exhausted then ((none, c), s)
  else
    let (result, s) := b.scan c.request s
    let c := { c with fetches := c.fetches + 1 }
    match result.failure with
    | some e => ((some (.ofBackend e), { c with buffer := [], exhausted := true }), s)
    | none => ((none, c.receive result.rows), s)

/-- Shows the next value without taking it. -/
def peek (b : Backend σ) (c : Cursor) : StateM σ (Pulled Row × Cursor) := fun s =>
  let ((failure, c), s) := c.fill b s
  match failure, c.buffer with
  | some e, _ => ((.failure e, c), s)
  | none, [] => ((.ended, c), s)
  | none, r :: _ => ((.value r, c), s)

/-- Takes the next value. -/
def next (b : Backend σ) (c : Cursor) : StateM σ (Pulled Row × Cursor) := fun s =>
  let ((failure, c), s) := c.fill b s
  match failure, c.buffer with
  | some e, _ => ((.failure e, c), s)
  | none, [] => ((.ended, c), s)
  | none, r :: rest => ((.value r, { c with buffer := rest }), s)

end Cursor

/-- Asks a source so many times, also after it has ended. -/
def pullTimes {σ τ α : Type} (next : τ → StateM σ (Pulled α × τ)) :
    Nat → τ → StateM σ (List (Pulled α) × τ)
  | 0, t => pure ([], t)
  | n + 1, t => do
    let (item, t) ← next t
    let (rest, t) ← pullTimes next n t
    return (item :: rest, t)

/-- A cursor that may be asked only so many more times, or as often as one likes. -/
structure LimitedCursor where
  cursor : Cursor
  left : Option Nat
  deriving DecidableEq

/-- Takes the next value, unless the limit is used up. -/
def LimitedCursor.next {σ : Type} (b : Backend σ) (c : LimitedCursor) :
    StateM σ (Pulled Row × LimitedCursor) := fun s =>
  match c.left with
  | some 0 => ((.ended, c), s)
  | left =>
    let ((item, cursor), s) := c.cursor.next b s
    ((item, ⟨cursor, left.map (· - 1)⟩), s)

end Historian
