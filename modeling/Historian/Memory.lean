import Historian.Backend

/-!
# A store in memory

`Memory.backend` keeps an archive, counts scans, batches and open leases, and can be told to fail
its next scans or writes and to hold batches back.

A failing call changes nothing but its counters; a failing write stores nothing.
-/

set_option autoImplicit false

namespace Historian

/-- A store in memory.  `scans` and `batches` count what has been asked for so far, `failingScans`
and `failingWrites` say how many of the next ones fail, and batches are held back while the store is
paused. -/
structure Memory where
  name : String
  archive : Archive
  capabilities : Capabilities
  purgesPoints : Bool
  chunkSize : Nat
  retention : Option Period
  scans : Nat
  batches : Nat
  openLeases : Nat
  failingWrites : Nat
  failingScans : Nat
  paused : Bool

namespace Memory

/-- An empty store with every capability. -/
def new : Memory where
  name := "memory"
  archive := .empty
  capabilities := .all
  purgesPoints := true
  chunkSize := Backend.defaultChunkSize
  retention := none
  scans := 0
  batches := 0
  openLeases := 0
  failingWrites := 0
  failingScans := 0
  paused := false

instance : Inhabited Memory := ⟨new⟩

/-- The rows that a scan of an archive finds. -/
def found (a : Archive) (request : Scan) : List Row :=
  (SortedMap.distinct request.series).flatMap fun s =>
    let rows := a.rows s request.window request.direction
    request.limit.elim rows rows.take

/-- Scans the archive. -/
def scan (request : Scan) (m : Memory) : ScanResult × Memory :=
  let m := { m with scans := m.scans + 1 }
  if m.failingScans = 0 then (⟨found m.archive request, none⟩, m)
  else
    (⟨[], some (.unavailable "injected scan failure")⟩, { m with failingScans := m.failingScans - 1 })

/-- Stores one sample. -/
def insert (series : SeriesId) (v : Sample) : Action Memory Sample := fun m =>
  if m.failingWrites = 0 then (.ok v, { m with archive := m.archive.put series v })
  else
    (.error (.unavailable "injected write failure"), { m with failingWrites := m.failingWrites - 1 })

/-- Stores a batch in order, all of it or nothing. -/
def insertBatch (batch : List (SeriesId × Sample)) : Action Memory Unit := fun m =>
  let m := { m with batches := m.batches + 1 }
  if m.failingWrites = 0 then (.ok (), { m with archive := m.archive.putAll batch })
  else
    (.error (.unavailable "injected batch failure"), { m with failingWrites := m.failingWrites - 1 })

/-- Changes the archive if `c` is declared, and reports how many entries that took away. -/
def delete (c : Capability) (change : Archive → Archive) : Action Memory (Option Nat) := fun m =>
  match m.capabilities.require c with
  | .error e => (.error e, m)
  | .ok () =>
    let archive := change m.archive
    (.ok (some (m.archive.count - archive.count)), { m with archive })

/-- What the retention period has let expire by `now` is removed; without a period, or when its
cutoff has no date, nothing is. -/
def enforceRetention (now : Timestamp) : Action Memory (Option Nat) := fun m =>
  delete .retentionPolicy (fun a =>
    match m.retention.bind fun p => p.cutoff now with
    | some cutoff => a.removeEverywhere ⟨none, some cutoff⟩
    | none => a) m

/-- The answers of the store in memory. -/
def backend : Backend Memory where
  name m := m.name
  capabilities m := m.capabilities
  scan := scan
  insert := insert
  insertBatch := insertBatch
  deleteWithin series w := delete .delete fun a => a.remove series w
  deleteAllBefore t := delete .deleteAllBefore fun a => a.removeEverywhere ⟨none, some t⟩
  deleteAll := delete .deleteAll fun _ => .empty
  deleteOrphaned live := delete .deleteOrphaned fun a => a.keepOnly live
  setRetention p m :=
    match m.capabilities.require .retentionPolicy with
    | .error e => (.error e, m)
    | .ok () => (.ok (), { m with retention := some p })
  enforceRetention := enforceRetention
  topSeries limit m :=
    match m.capabilities.require .topSeries with
    | .error e => (.error e, m)
    | .ok () => (.ok (m.archive.ranking.take limit), m)
  purgesPoints m := m.purgesPoints
  chunkSize m := m.chunkSize
  openLease m := (.ok ⟨true⟩, { m with openLeases := m.openLeases + 1 })
  releaseLease lease m := { m with openLeases := m.openLeases - lease.releases }
  holdsBatches m := m.paused

end Memory

end Historian
