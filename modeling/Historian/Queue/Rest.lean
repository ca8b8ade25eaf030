import Historian.Backend
import Historian.Queue.Pool

/-!
# Letting a pool come to rest

`Pool.comeToRest` lets workers and waiting calls go on in a fixed order until only time or the
backend holds them back.  `Pool.settle` also lets the backend take the batches handed to it, the one
that was handed over first before the others.

Both are runs of single pool events, so what holds of every run holds of them.
-/

set_option autoImplicit false

namespace Historian.Pool

/-- Handles events one after the other; each is chosen when its turn comes. -/
def inTurn {α : Type} (act : Pool → α → Pool × List Effect) (p : Pool) : List α → Pool × List Effect
  | [] => (p, [])
  | a :: rest =>
    let (p, first) := act p a
    let (p, later) := inTurn act p rest
    (p, first ++ later)

/-- Lets every worker go on once. -/
def workAll (p : Pool) : Pool × List Effect := inTurn work p (List.range p.workers.length)

/-- Lets every waiting call look once, the oldest first. -/
def pollAll (p : Pool) : Pool × List Effect := inTurn poll p (p.waiting.map Call.number)

/-- Rounds of workers and calls, until a round in which no call returns. -/
def rounds : Nat → Pool → Pool × List Effect
  | 0, p => (p, [])
  | fuel + 1, p =>
    let (p, worked) := p.workAll
    let (p, polled) := p.pollAll
    if polled.isEmpty then (p, worked)
    else
      let (p, later) := rounds fuel p
      (p, worked ++ polled ++ later)

/-- Lets workers and calls go on until nothing changes; every round but the last ends a call. -/
def comeToRest (p : Pool) : Pool × List Effect := rounds (p.waiting.length + 1) p

/-- The batches at the backend: the number of each, its worker, and its samples. -/
def atBackend (p : Pool) : List (Nat × Nat × List Item) :=
  p.workers.zipIdx.filterMap fun (w, i) =>
    match w.activity with
    | .writing batch turn => some (turn, i, batch)
    | _ => none

/-- The batch that was handed over first, with its worker. -/
def firstAtBackend? (p : Pool) : Option (Nat × List Item) :=
  let first := p.atBackend.foldl (fun best x =>
    match best with
    | none => some x
    | some y => if x.1 < y.1 then some x else some y) none
  first.map (·.2)

variable {σ : Type}

/-- Lets the backend take batches until there is none or it holds them back. -/
def writeOut (b : Backend σ) : Nat → Pool → StateM σ (Pool × List Effect)
  | 0, p => fun s => ((p, []), s)
  | fuel + 1, p => fun s =>
    if b.holdsBatches s then ((p, []), s)
    else
      match p.firstAtBackend? with
      | none => ((p, []), s)
      | some (i, batch) =>
        let (result, s) := b.insertBatch (batch.map Item.entry) s
        let (p, returned) := p.finish i result.isOk
        let (p, rested) := p.comeToRest
        let ((p, later), s) := writeOut b fuel p s
        ((p, returned ++ rested ++ later), s)

/-- Lets everything go on until only time or the backend holds it back.  Each batch that returns
leaves fewer samples pending or waiting. -/
def settle (b : Backend σ) (p : Pool) : StateM σ (Pool × List Effect) := fun s =>
  let (p, rested) := p.comeToRest
  let ((p, later), s) := writeOut b (p.pending + p.waiting.length) p s
  ((p, rested ++ later), s)

end Historian.Pool
