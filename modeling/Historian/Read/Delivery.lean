import Historian.Read.Merge

/-!
# Delivering rows

A read hands its rows over one by one, and the receiver may act on the store after each of them: a
`Reaction` is what it does.  The `Delivery` is what was handed over, and the failure that ended the
read if there was one.
-/

set_option autoImplicit false

namespace Historian

/-- What a read handed over. -/
structure Delivery where
  rows : List Row
  failure : Option Failure
  deriving DecidableEq

namespace Delivery

/-- Nothing to hand over. -/
def nothing : Delivery := ⟨[], none⟩

/-- A read that was refused. -/
def refused (e : Failure) : Delivery := ⟨[], some e⟩

/-- The rows of a read that did not fail. -/
def toExcept (d : Delivery) : Except Failure (List Row) :=
  match d.failure with
  | some e => .error e
  | none => .ok d.rows

end Delivery

/-- What the receiver does to the store after a row; the number counts the rows of the read up to
and including that one. -/
abbrev Reaction (σ : Type) := Nat → Row → σ → σ

/-- A receiver that leaves the store alone. -/
def Reaction.none {σ : Type} : Reaction σ := fun _ _ s => s

variable {σ τ : Type}

/-- Asks a source for at most `budget` items and hands the rows over, `before` of the read's rows
having been handed over already. -/
def deliverRows (next : τ → StateM σ (Pulled Row × τ)) (react : Reaction σ) :
    (budget before : Nat) → τ → StateM σ Delivery
  | 0, _, _ => fun s => (.nothing, s)
  | budget + 1, before, source => fun s =>
    let ((item, source), s) := next source s
    match item with
    | .ended => (.nothing, s)
    | .failure e => (.refused e, s)
    | .value r =>
      let (d, s) := deliverRows next react budget (before + 1) source (react (before + 1) r s)
      ({ d with rows := r :: d.rows }, s)

/-- Reads one part after the other until one fails. -/
def deliverInTurn {ι : Type} (read : ι → Nat → StateM σ Delivery) :
    (before : Nat) → List ι → StateM σ Delivery
  | _, [] => fun s => (.nothing, s)
  | before, i :: rest => fun s =>
    let (d, s) := read i before s
    match d.failure with
    | some _ => (d, s)
    | none =>
      let (d', s) := deliverInTurn read (before + d.rows.length) rest s
      (⟨d.rows ++ d'.rows, d'.failure⟩, s)

end Historian
