import Historian.Archive
import Historian.Retention

/-!
# The backend contract

A `Backend σ` says how a store with state `σ` answers.  Scanning and inserting are always there; the
other operations may fail for want of a capability.  Each operation gives the state after it, also
when it fails.

A scan may deliver rows before it fails, so its result holds both.
-/

set_option autoImplicit false

namespace Historian

/-- A request for stored values: the series to look at, which the result goes through by ascending
id, and the most rows of each. -/
structure Scan where
  series : List SeriesId
  window : Window
  limit : Option Nat
  direction : Direction
  deriving DecidableEq

/-- What a scan brought. -/
structure ScanResult where
  rows : List Row
  failure : Option BackendFailure
  deriving DecidableEq

/-- What a backend holds open for a stream; `held` says whether there is something to give back. -/
structure Lease where
  held : Bool
  deriving DecidableEq

namespace Lease

/-- A lease that holds nothing. -/
def detached : Lease := ⟨false⟩

/-- How often dropping the lease gives something back. -/
def releases (l : Lease) : Nat := if l.held then 1 else 0

/-- The lease for a reader. -/
def display (l : Lease) : String :=
  "ReadLease \x7b held: " ++ (if l.held then "true" else "false") ++ " \x7d"

end Lease

/-- An operation on a store that may fail. -/
abbrev Action (σ α : Type) := σ → Except BackendFailure α × σ

/-- How a store answers.  Deletes count what they remove if they can; orphans are the series that
are not in the list, and retention removes what has expired by the given time.  `purgesPoints` says
whether old values are purged point by point, `chunkSize` how many values of one series the store
likes to deliver at once, and `holdsBatches` whether a batch handed over now would be held back. -/
structure Backend (σ : Type) where
  name : σ → String
  capabilities : σ → Capabilities
  scan : Scan → σ → ScanResult × σ
  insert : SeriesId → Sample → Action σ Sample
  insertBatch : List (SeriesId × Sample) → Action σ Unit
  deleteWithin : SeriesId → Window → Action σ (Option Nat)
  deleteAllBefore : Timestamp → Action σ (Option Nat)
  deleteAll : Action σ (Option Nat)
  deleteOrphaned : List SeriesId → Action σ (Option Nat)
  setRetention : Period → Action σ Unit
  enforceRetention : Timestamp → Action σ (Option Nat)
  topSeries : Nat → Action σ (List SeriesCount)
  purgesPoints : σ → Bool
  chunkSize : σ → Nat
  openLease : Action σ Lease
  releaseLease : Lease → σ → σ
  holdsBatches : σ → Bool

namespace Backend

/-- The chunk size of a store that has no preference. -/
def defaultChunkSize : Nat := 1000

/-- The answer of an operation that a store does not have. -/
def lacking {σ α : Type} (c : Capability) : Action σ α := fun s => (.error (.unsupported c), s)

variable {σ : Type}

/-- A backend with nothing but the mandatory operations of `b`, though it still declares what `b`
declares.  A scan brings at most `cap` rows of each series, and fails at once with `scanFailure` if
there is one. -/
def mandatoryOnly (b : Backend σ) (cap : Option Nat) (scanFailure : Option BackendFailure) :
    Backend σ where
  name := b.name
  capabilities := b.capabilities
  scan request s :=
    match scanFailure with
    | some e => (⟨[], some e⟩, s)
    | none =>
      let limit := match cap, request.limit with
        | some k, some l => some (min k l)
        | some k, none => some k
        | none, l => l
      b.scan { request with limit } s
  insert := b.insert
  insertBatch := b.insertBatch
  deleteWithin _ _ := lacking .delete
  deleteAllBefore _ := lacking .deleteAllBefore
  deleteAll := lacking .deleteAll
  deleteOrphaned _ := lacking .deleteOrphaned
  setRetention _ := lacking .retentionPolicy
  enforceRetention _ s := (.ok none, s)
  topSeries _ := lacking .topSeries
  purgesPoints _ := true
  chunkSize _ := defaultChunkSize
  openLease s := (.ok .detached, s)
  releaseLease _ s := s
  holdsBatches := b.holdsBatches

/-- Forgets the number that a deletion reports. -/
def discardCount {α : Type} (action : Action σ (Option α)) : Action σ (Option α) := fun s =>
  let (r, s) := action s
  (r.map fun _ => none, s)

/-- A backend that passes on what `b` does, but does not count what it deletes, ranks no series and
expires nothing by itself.  With `leaseFailure` no stream can be opened. -/
def uncounted (b : Backend σ) (leaseFailure : Option BackendFailure) : Backend σ :=
  { b with
    deleteWithin := fun series w => discardCount (b.deleteWithin series w)
    deleteAllBefore := fun t => discardCount (b.deleteAllBefore t)
    deleteAll := discardCount b.deleteAll
    deleteOrphaned := fun live => discardCount (b.deleteOrphaned live)
    enforceRetention := fun _ s => (.ok none, s)
    topSeries := fun _ => lacking .topSeries
    openLease := fun s =>
      match leaseFailure with
      | some e => (.error e, s)
      | none => b.openLease s }

end Backend

end Historian
