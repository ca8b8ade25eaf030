import Historian.Failure

/-!
# Directions and windows of time

A read goes through time in a `Direction`, over a `Window` that contains its start and not its stop;
either end may be open.

* `Window.new` accepts exactly the windows whose stop is not before their start.
* `Direction.precedes` is the order in which rows of several series are put together.
-/

set_option autoImplicit false

namespace Historian

/-- The time after `t`, if there is one. -/
def Timestamp.next? (t : Timestamp) : Option Timestamp :=
  if t = Int64.maxValue then none else some (t + 1)

/-- Which end of time a read begins at. -/
inductive Direction
  | ascending
  | descending
  deriving DecidableEq

namespace Direction

/-- Compares two times as the direction meets them. -/
def compareTimes : Direction → Timestamp → Timestamp → Ordering
  | ascending, a, b => compare a b
  | descending, a, b => compare b a

/-- Compares places in a combined read: by time as the direction meets it, then by series. -/
def comparePlaces (d : Direction) (s : SeriesId) (a : Timestamp) (s' : SeriesId) (b : Timestamp) :
    Ordering :=
  (d.compareTimes a b).then (compare s s')

/-- Compares rows by their places in a combined read. -/
def compareRows (d : Direction) (a b : Row) : Ordering :=
  d.comparePlaces a.series a.time b.series b.time

/-- Puts an ascending list into the direction's order. -/
def arrange {α : Type} : Direction → List α → List α
  | ascending, xs => xs
  | descending, xs => xs.reverse

end Direction

/-- A span of time, from `start` (included) to `stop` (excluded). -/
structure Window where
  start : Option Timestamp
  stop : Option Timestamp
  deriving DecidableEq

namespace Window

/-- All of time. -/
def all : Window := ⟨none, none⟩

/-- The window between two optional times, refused when the stop comes before the start. -/
def new (start stop : Option Timestamp) : Except Failure Window :=
  match start, stop with
  | some f, some t =>
    if t < f then .error (.invalidArgument (.windowInverted f t)) else .ok ⟨start, stop⟩
  | _, _ => .ok ⟨start, stop⟩

/-- The window of the single time `t`; at the end of time it has no stop. -/
def single (t : Timestamp) : Window := ⟨some t, Timestamp.next? t⟩

/-- Whether `t` lies in the window. -/
def contains (w : Window) (t : Timestamp) : Bool :=
  (w.start.all fun f => decide (f ≤ t)) && (w.stop.all fun s => decide (t < s))

/-- Whether the ends leave no room. -/
def isEmpty (w : Window) : Bool :=
  match w.start, w.stop with
  | some f, some t => decide (t ≤ f)
  | _, _ => false

/-- How many times lie in the window. -/
def width (w : Window) : Nat :=
  let first := (w.start.getD Int64.minValue).toInt
  let past := w.stop.elim (Int64.maxValue.toInt + 1) Int64.toInt
  (past - first).toNat

/-- The window in brackets. -/
def display (w : Window) : String :=
  "[" ++ w.start.elim "-inf" (fun t => toString t.toInt) ++ ", " ++
    w.stop.elim "+inf" (fun t => toString t.toInt) ++ ")"

@[simp] theorem contains_all (t : Timestamp) : all.contains t = true := rfl

/-- A window is refused exactly when its stop comes before its start. -/
theorem new_eq_error_iff {start stop : Option Timestamp} {e : Failure} :
    new start stop = .error e ↔
      ∃ f t, start = some f ∧ stop = some t ∧ t < f ∧
        e = .invalidArgument (.windowInverted f t) := by
  constructor
  · intro h
    unfold new at h
    split at h
    · split at h
      · rename_i f t hlt
        exact ⟨f, t, rfl, rfl, hlt, by simpa using h.symm⟩
      · simp at h
    · simp at h
  · rintro ⟨f, t, rfl, rfl, hlt, rfl⟩
    simp [new, hlt]

/-- An accepted window has the ends it was asked for. -/
theorem eq_of_new {start stop : Option Timestamp} {w : Window} (h : new start stop = .ok w) :
    w = ⟨start, stop⟩ := by
  unfold new at h
  split at h
  · split at h
    · simp at h
    · simpa using h.symm
  · simpa using h.symm

/-- A window whose ends are in order is accepted. -/
theorem new_eq_ok {start stop : Option Timestamp}
    (h : ∀ f t, start = some f → stop = some t → f ≤ t) : new start stop = .ok ⟨start, stop⟩ := by
  cases hnew : new start stop with
  | ok w => rw [eq_of_new hnew]
  | error e =>
    obtain ⟨f, t, hf, ht, hlt, -⟩ := new_eq_error_iff.1 hnew
    exact absurd hlt (Std.not_lt.2 (h f t hf ht))

end Window

end Historian
