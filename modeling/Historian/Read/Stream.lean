import Historian.Read.Delivery

/-!
# Streams

A `Stream` is a read that its user drives, together with the lease the backend gave out for it.  The
lease goes back when the stream ends, fails, is closed or is dropped, whichever comes first.
-/

set_option autoImplicit false

namespace Historian

/-- Where the rows of a stream come from: one source after the other, or all of them together. -/
inductive StreamBody
  | inTurn (sources : List LimitedCursor)
  | merged (direction : Direction) (merge : Merge LimitedCursor Row)

/-- A read driven by its user.  A closed stream has no body, and `remaining` is how many rows may
still come, if that is limited. -/
structure Stream where
  body : Option StreamBody
  lease : Option Lease
  remaining : Option Nat

namespace StreamBody

variable {σ : Type}

/-- Takes the next row of the first source that has one. -/
def nextInTurn (b : Backend σ) : List LimitedCursor → StateM σ (Pulled Row × List LimitedCursor)
  | [] => fun s => ((.ended, []), s)
  | c :: rest => fun s =>
    let ((item, c), s) := c.next b s
    match item with
    | .ended => nextInTurn b rest s
    | item => ((item, c :: rest), s)

/-- Takes the next row. -/
def next (b : Backend σ) : StreamBody → StateM σ (Pulled Row × StreamBody)
  | inTurn sources => fun s =>
    let ((item, sources), s) := nextInTurn b sources s
    ((item, inTurn sources), s)
  | merged d m => fun s =>
    let ((item, m), s) := m.next d.compareRows (LimitedCursor.next b) s
    ((item, merged d m), s)

end StreamBody

namespace Stream

/-- A stream over `body` that holds `lease` until it ends. -/
def new (body : StreamBody) (lease : Lease) (limit : Option Nat) : Stream :=
  ⟨some body, some lease, limit⟩

/-- A stream without rows. -/
def empty : Stream := ⟨none, none, some 0⟩

/-- Whether the stream has ended. -/
def isClosed (t : Stream) : Bool := t.body.isNone

/-- The stream for a reader. -/
def display (t : Stream) : String :=
  "PointValueStream \x7b closed: " ++ (if t.isClosed then "true" else "false") ++ ", remaining: " ++
    t.remaining.elim "None" (fun n => "Some(" ++ toString n ++ ")") ++ " \x7d"

variable {σ : Type}

/-- Gives the lease back and delivers no more. -/
def close (b : Backend σ) (t : Stream) : StateM σ Stream := fun s =>
  ({ t with body := none, lease := none }, t.lease.elim s fun l => b.releaseLease l s)

/-- Takes the next row. -/
def next (b : Backend σ) (t : Stream) : StateM σ (Pulled Row × Stream) := fun s =>
  if t.remaining = some 0 then
    let (t, s) := t.close b s
    ((.ended, t), s)
  else
    match t.body with
    | none => ((.ended, t), s)
    | some body =>
      let ((item, body), s) := body.next b s
      let t := { t with body := some body }
      match item with
      | .value r => ((.value r, { t with remaining := t.remaining.map (· - 1) }), s)
      | item =>
        let (t, s) := t.close b s
        ((item, t), s)

/-- Takes up to `n` rows, stopping after the first answer that is not a row. -/
def take (b : Backend σ) : Nat → Stream → StateM σ (List (Except Failure Row) × Stream)
  | 0, t => fun s => (([], t), s)
  | n + 1, t => fun s =>
    let ((item, t), s) := t.next b s
    match item with
    | .ended => (([], t), s)
    | .failure e => (([.error e], t), s)
    | .value r =>
      let ((rest, t), s) := take b n t s
      ((.ok r :: rest, t), s)

end Stream

end Historian
