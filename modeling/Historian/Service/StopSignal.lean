/-!
# Stop signals

A `StopSignal` asks every service that listens to it to end.  A call that waits for the signal
returns once a stop has been requested, or once nobody can request one any more.
-/

set_option autoImplicit false

namespace Historian

/-- A stop request and the calls that wait for it, the oldest first; it is abandoned when the side
that requests stops is gone. -/
structure StopSignal where
  requested : Bool
  abandoned : Bool
  waiting : List Nat
  deriving DecidableEq

namespace StopSignal

/-- A signal without a request. -/
def new : StopSignal := ⟨false, false, []⟩

/-- What can happen to a signal. -/
inductive Event
  | wait (call : Nat)
  | stop
  | reset
  | abandon
  deriving DecidableEq

/-- Whether a waiting call may return. -/
def fires (s : StopSignal) : Bool := s.requested || s.abandoned

/-- Lets waiting calls return if they may. -/
def settle (s : StopSignal) : StopSignal × List Nat :=
  if s.fires then ({ s with waiting := [] }, s.waiting) else (s, [])

/-- One event, with the calls that return because of it.  Nobody is left to change an abandoned
signal. -/
def step (s : StopSignal) : Event → StopSignal × List Nat
  | .wait call => settle { s with waiting := s.waiting ++ [call] }
  | .stop => settle (if s.abandoned then s else { s with requested := true })
  | .reset => settle (if s.abandoned then s else { s with requested := false })
  | .abandon => settle { s with abandoned := true }

end StopSignal

end Historian
