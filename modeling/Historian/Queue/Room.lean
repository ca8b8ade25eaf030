import Historian.Failure

/-!
# Room in the write queue

A `Room` grants a bounded number of places.  A ticket that holds a place keeps it until it is
released; when no place is free, the `Overflow` policy says whether a new ticket waits, is refused,
or is dropped.  Waiting tickets are served first come, first served.

## Protocol

* `request` is answered at once, except that under `block` a ticket waits while no place is free.
* `release` frees a place, which goes to the ticket that has waited longest.
* `cancel` takes a ticket out of the line.
* `close` refuses every waiting ticket and all later ones; places still held can be released.
-/

set_option autoImplicit false

namespace Historian

/-- What happens to a value for which there is no room. -/
inductive Overflow
  | block
  | reject
  | dropNewest
  deriving DecidableEq

/-- The word for a policy. -/
def Overflow.name : Overflow → String
  | block => "block"
  | reject => "reject"
  | dropNewest => "drop_newest"

/-- Every policy with its word. -/
def Overflow.named : List (String × Overflow) :=
  [("block", block), ("reject", reject), ("drop_newest", dropNewest)]

/-- Names one request for a place. -/
abbrev Ticket := Nat

/-- The answer to a request for a place. -/
inductive RoomAnswer
  | granted
  | dropped
  | refused (cause : IntakeFailure)
  deriving DecidableEq

/-- A bounded number of places, the tickets that hold one, and those that wait in the line, the
oldest first. -/
structure Room where
  capacity : Nat
  policy : Overflow
  holders : List Ticket
  line : List Ticket
  isOpen : Bool
  deriving DecidableEq

namespace Room

/-- A room with every place free. -/
def new (capacity : Nat) (policy : Overflow) : Room := ⟨capacity, policy, [], [], true⟩

/-- How many places are held. -/
def inUse (r : Room) : Nat := r.holders.length

/-- Gives free places to the line while the room is open. -/
def serve (r : Room) : Room × List (Ticket × RoomAnswer) :=
  if r.isOpen then
    let served := r.line.take (r.capacity - r.inUse)
    ({ r with holders := r.holders ++ served, line := r.line.drop (r.capacity - r.inUse) },
      served.map fun t => (t, .granted))
  else (r, [])

/-- Asks for a place. -/
def request (r : Room) (t : Ticket) : Room × List (Ticket × RoomAnswer) :=
  if !r.isOpen then (r, [(t, .refused .queueClosed)])
  else if r.inUse < r.capacity ∧ r.line = [] then
    ({ r with holders := r.holders ++ [t] }, [(t, .granted)])
  else
    match r.policy with
    | .block => ({ r with line := r.line ++ [t] }, [])
    | .reject => (r, [(t, .refused (.queueFull r.capacity))])
    | .dropNewest => (r, [(t, .dropped)])

/-- Gives a place back; a ticket without a place has none to give. -/
def release (r : Room) (t : Ticket) : Room × List (Ticket × RoomAnswer) :=
  serve { r with holders := r.holders.erase t }

/-- Leaves the line. -/
def cancel (r : Room) (t : Ticket) : Room × List (Ticket × RoomAnswer) :=
  ({ r with line := r.line.erase t }, [])

/-- Grants no more places. -/
def close (r : Room) : Room × List (Ticket × RoomAnswer) :=
  ({ r with isOpen := false, line := [] }, r.line.map fun t => (t, .refused .queueClosed))

/-- What can happen to a room. -/
inductive Event
  | request (t : Ticket)
  | release (t : Ticket)
  | cancel (t : Ticket)
  | close
  deriving DecidableEq

/-- One event, with the answers it brings about in order. -/
def step (r : Room) : Event → Room × List (Ticket × RoomAnswer)
  | .request t => r.request t
  | .release t => r.release t
  | .cancel t => r.cancel t
  | .close => r.close

/-- A run of events, with all answers in order. -/
def run (r : Room) (events : List Event) : Room × List (Ticket × RoomAnswer) :=
  events.foldl (fun acc e => let (r, answers) := acc.1.step e; (r, acc.2 ++ answers)) (r, [])

end Room

end Historian
