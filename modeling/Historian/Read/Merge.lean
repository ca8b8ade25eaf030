import Historian.Read.Cursor

/-!
# Merging ordered sources

A `Merge` puts several sources together in the order of a comparison.  It holds the head of every
unfinished source and delivers the least, equal heads by the place of their source; only then does
it ask that source for its next head.  Nothing is asked before the first call.

The first failure ends the merge: met while the first heads are fetched it comes out at once, met
while a successor is fetched it comes out after the value that has just been chosen.
-/

set_option autoImplicit false

namespace Historian

/-- Sources of type `τ` put together into one sequence of `α`.  Once it is primed the merge keeps
the heads with the places of their sources, the one to deliver next first; a failure is parked until
it is delivered. -/
structure Merge (τ α : Type) where
  sources : List τ
  heads : List (Nat × α)
  primed : Bool
  parked : Option Failure
  finished : Bool

namespace Merge

variable {σ τ α : Type}

/-- A merge that has asked for nothing. -/
def new (sources : List τ) : Merge τ α := ⟨sources, [], false, none, false⟩

/-- Whether head `a` of source `i` goes before head `b` of source `j`. -/
def goesBefore (cmp : α → α → Ordering) (i : Nat) (a : α) (j : Nat) (b : α) : Bool :=
  match cmp a b with
  | .lt => true
  | .eq => i < j
  | .gt => false

/-- Puts a head into its place. -/
def insertHead (cmp : α → α → Ordering) (i : Nat) (a : α) : List (Nat × α) → List (Nat × α)
  | [] => [(i, a)]
  | h :: rest =>
    if goesBefore cmp i a h.1 h.2 then (i, a) :: h :: rest else h :: insertHead cmp i a rest

/-- Fetches the heads of `sources`, the first of which has place `i`.  After a failure the remaining
sources are left alone. -/
def prime (cmp : α → α → Ordering) (pull : τ → StateM σ (Pulled α × τ)) :
    Nat → List τ → List (Nat × α) → StateM σ (Option Failure × List τ × List (Nat × α))
  | _, [], heads => fun s => ((none, [], heads), s)
  | i, t :: rest, heads => fun s =>
    let ((item, t), s) := pull t s
    match item with
    | .failure e => ((some e, t :: rest, heads), s)
    | .value a =>
      let ((e, rest, heads), s) := prime cmp pull (i + 1) rest (insertHead cmp i a heads) s
      ((e, t :: rest, heads), s)
    | .ended =>
      let ((e, rest, heads), s) := prime cmp pull (i + 1) rest heads s
      ((e, t :: rest, heads), s)

/-- Delivers the first head and asks its source for the next one. -/
def deliver (cmp : α → α → Ordering) (pull : τ → StateM σ (Pulled α × τ)) (m : Merge τ α) :
    StateM σ (Pulled α × Merge τ α) := fun s =>
  match m.heads with
  | [] => ((.ended, { m with finished := true }), s)
  | (i, a) :: rest =>
    match m.sources[i]? with
    | none => ((.value a, { m with heads := rest }), s)
    | some t =>
      let ((item, t), s) := pull t s
      let m := { m with sources := m.sources.set i t }
      match item with
      | .value b => ((.value a, { m with heads := insertHead cmp i b rest }), s)
      | .failure e => ((.value a, { m with heads := rest, parked := some e }), s)
      | .ended => ((.value a, { m with heads := rest }), s)

/-- Takes the next item. -/
def next (cmp : α → α → Ordering) (pull : τ → StateM σ (Pulled α × τ)) (m : Merge τ α) :
    StateM σ (Pulled α × Merge τ α) := fun s =>
  if m.finished then ((.ended, m), s)
  else
    match m.parked with
    | some e => ((.failure e, { m with parked := none, finished := true }), s)
    | none =>
      if m.primed then m.deliver cmp pull s
      else
        let ((e, sources, heads), s) := prime cmp pull 0 m.sources m.heads s
        let m := { m with sources, heads, primed := true }
        match e with
        | some e => ((.failure e, { m with finished := true }), s)
        | none => m.deliver cmp pull s

end Merge

/-- A list as a source, with the number of items that it has given.  Some of them may be failures.
-/
structure Supply (α : Type) where
  items : List (Except Failure α)
  given : Nat

namespace Supply

variable {α : Type}

/-- A list that has given nothing. -/
def ofList (items : List (Except Failure α)) : Supply α := ⟨items, 0⟩

/-- Gives the next item. -/
def next (t : Supply α) : StateM Unit (Pulled α × Supply α) :=
  match t.items with
  | [] => pure (.ended, t)
  | .ok x :: rest => pure (.value x, ⟨rest, t.given + 1⟩)
  | .error e :: rest => pure (.failure e, ⟨rest, t.given + 1⟩)

end Supply

end Historian
