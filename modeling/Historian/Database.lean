import Historian.Read.Stream

/-!
# Databases

A `Database` reads and writes through one backend.  What the backend offers is asked once, when the
database is opened; afterwards a call that needs a capability the backend did not declare is refused
without reaching it.

This module holds the sizes of the chunks in which reads go through the backend.  Both are positive,
so a read whose arguments are in order is never refused for a chunk size.
-/

set_option autoImplicit false

namespace Historian

/-- How a database reads: the number of values per scan, which nothing leaves to the backend, and
the least that it is for a combined read. -/
structure ReadSettings where
  chunkSize : Option Nat
  minCombinedChunk : Nat
  deriving DecidableEq

/-- The settings used unless others are given. -/
def ReadSettings.default : ReadSettings := ⟨none, 10⟩

/-- A backend made ready for reading and writing, with what it declared when the database was
opened. -/
structure Database (σ : Type) where
  backend : Backend σ
  capabilities : Capabilities
  chunkSize : Nat
  minCombinedChunk : Nat
  chunkSize_pos : 0 < chunkSize
  minCombinedChunk_pos : 0 < minCombinedChunk

namespace Database

variable {σ : Type}

/-- Makes a backend ready. -/
def new (b : Backend σ) (settings : ReadSettings) (s : σ) : Except Failure (Database σ) :=
  let chunkSize := settings.chunkSize.getD (b.chunkSize s)
  if h : 0 < chunkSize then
    if h' : 0 < settings.minCombinedChunk then
      .ok ⟨b, b.capabilities s, chunkSize, settings.minCombinedChunk, h, h'⟩
    else .error (.invalidArgument .zeroCombinedChunk)
  else .error (.invalidArgument .zeroChunk)

/-- Refuses a limit below zero. -/
def checkLimit : Option Int → Except Failure (Option Nat)
  | none => .ok none
  | some l => if l < 0 then .error (.invalidArgument (.negativeLimit l)) else .ok (some l.toNat)

/-- The distinct series of some points, ascending. -/
def seriesOf (points : List Point) : List SeriesId := SortedMap.distinct (points.map Point.series)

/-- The chunk size of a read that stops after `limit` values. -/
def limitedChunk (db : Database σ) : Option Nat → Nat
  | some l => min (max l 1) db.chunkSize
  | none => db.chunkSize

/-- The chunk size of a combined read over `points` series.  A limit on all of them together rarely
takes a full chunk from each, so the chunk shrinks towards an even share, but not below the
configured least size. -/
def combinedChunk (db : Database σ) (limit : Option Nat) (points : Nat) : Nat :=
  match limit with
  | some l =>
    if points = 0 then db.chunkSize
    else max (min (l / points + 1) db.chunkSize) db.minCombinedChunk
  | none => db.chunkSize

/-- Refuses a call that needs what the backend did not declare. -/
def require (db : Database σ) (c : Capability) : Except Failure Unit :=
  if db.capabilities.supports c then .ok () else .error (.unsupported c)

end Database

end Historian
