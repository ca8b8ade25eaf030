import Historian.Database.Changes
import Historian.Purge.Schedule
import Historian.Queue.Rest
import Historian.Setup

/-!
# A database at work

A `Site` is a database with everything that is used and runs beside it: its store, its writer pool,
the streams and cursors in use, purge managers, and the service that purges on schedule.  It has two
clocks, one for the time of day and one that only moves forward; `Site.advance` moves both.
-/

set_option autoImplicit false

namespace Historian

/-- A purge manager with the targets of its catalog. -/
structure Purger where
  manager : PurgeManager
  targets : List PurgeTarget

/-- A database, its store, and what runs beside it: the streams and cursors in use, by name, the
purge managers, the oldest first, and the purge service with the place of its manager.  The clock
`now` counts milliseconds and only moves forward; `wall` is the time of day. -/
structure Site (σ : Type) where
  backend : Backend σ
  store : σ
  database : Database σ
  pool : Option Pool
  streams : SortedMap String Stream
  cursors : SortedMap String Cursor
  now : Nat
  wall : Timestamp
  purgers : List Purger
  service : Option (PurgeService × Nat)

namespace Site

variable {σ ω α : Type}

/-- A site over a store, without anything to purge. -/
def start (setup : Setup) (backend : Option (Backend σ)) (store : σ) : Except Failure (Site σ) := do
  let handle ← setup.build backend 0 store
  return ⟨handle.database.backend, store, handle.database, handle.pool, .empty, .empty, 0, 0, [],
    none⟩

/-- Works on the store. -/
def onStore (act : StateM σ α) : StateM (Site σ) α := fun site =>
  let (r, store) := act site.store
  (r, { site with store })

/-! ## Streams and cursors -/

/-- Keeps the stream of a name, or forgets the name. -/
def setStream (site : Site σ) (name : String) : Option Stream → Site σ
  | some t => { site with streams := site.streams.insert name t }
  | none => { site with streams := site.streams.filter fun n _ => n != name }

/-- Opens a stream under a name.  Once it is open, a stream that had the name is closed. -/
def openStream (name : String) (open' : StateM σ (Except Failure Stream)) :
    StateM (Site σ) (Except Failure Unit) := fun site =>
  match onStore open' site with
  | (.error e, site) => (.error e, site)
  | (.ok t, site) =>
    let site := match site.streams.get? name with
      | some old => (onStore (old.close site.backend) site).2
      | none => site
    (.ok (), site.setStream name (some t))

/-- Works on the stream of a name, if there is one, and keeps what becomes of it. -/
def withStream (name : String) (act : Stream → StateM σ (α × Option Stream)) :
    StateM (Site σ) (Option α) := fun site =>
  match site.streams.get? name with
  | none => (none, site)
  | some t =>
    let ((r, t), site) := onStore (act t) site
    (some r, site.setStream name t)

/-- Closes the stream of a name and forgets it; tells whether there was one. -/
def dropStream (name : String) : StateM (Site σ) Bool := fun site =>
  let (r, site) := withStream name (fun t => do
    let _ ← t.close site.backend
    return ((), none)) site
  (r.isSome, site)

/-- Keeps a cursor under a name. -/
def setCursor (site : Site σ) (name : String) (c : Cursor) : Site σ :=
  { site with cursors := site.cursors.insert name c }

/-- Works on the cursor of a name, if there is one. -/
def withCursor (name : String) (act : Cursor → StateM σ (α × Cursor)) :
    StateM (Site σ) (Option α) := fun site =>
  match site.cursors.get? name with
  | none => (none, site)
  | some c =>
    let ((r, c), site) := onStore (act c) site
    (some r, site.setCursor name c)

/-! ## Queued writes -/

/-- Makes requests one after the other, before anything else goes on.  Gives the number of the first
call and the effects; without a pool every request is answered at once. -/
def request : List Pool.Request → StateM (Site σ) (List Pool.Effect)
  | [] => pure []
  | r :: rest => fun site =>
    match site.pool with
    | none =>
      let (later, site) := request rest site
      (.answered 0 (.withoutPool r) :: later, site)
    | some p =>
      let (p, effects) := p.call r
      let (later, site) := request rest { site with pool := some p }
      (effects ++ later, site)

/-- Lets the pool go on until only time or the backend holds it back. -/
def settle : StateM (Site σ) (List Pool.Effect) := fun site =>
  match site.pool with
  | none => ([], site)
  | some p =>
    let ((p, effects), store) := p.settle site.backend site.store
    (effects, { site with pool := some p, store })

/-- Samples written per second through the pool. -/
def writeRate : StateM (Site σ) Float := fun site =>
  match site.pool with
  | none => (0.0, site)
  | some p =>
    let (rate, p) := p.readRate
    (rate, { site with pool := some p })

/-! ## Purging -/

/-- The place of the newest purge manager. -/
def newest (site : Site σ) : Nat := site.purgers.length - 1

/-- Adds a purge manager. -/
def addPurger (site : Site σ) (default : Option Period) (targets : List PurgeTarget) : Site σ :=
  let manager := PurgeManager.new (site.backend.capabilities site.store) default
  { site with purgers := site.purgers ++ [⟨manager, targets⟩] }

/-- Changes the newest purge manager or its targets. -/
def changePurger (f : Purger → Purger) (site : Site σ) : Site σ :=
  { site with purgers := site.purgers.modify site.newest f }

/-- Purges with the manager at a place, through a catalog that may use something outside. -/
def purgeThrough (place : Nat) (outside : ω)
    (catalog : Backend σ → List PurgeTarget → Catalog (PurgeState σ ω)) (now : Timestamp) :
    StateM (Site σ) (Except Failure (Option PurgeReport) × ω) := fun site =>
  match site.purgers[place]? with
  | none => ((.ok none, outside), site)
  | some p =>
    let (r, st) := PurgeManager.run site.backend (catalog site.backend p.targets) now
      ⟨p.manager, site.store, outside⟩
    ((r, st.outside),
      { site with
        store := st.store
        purgers := site.purgers.set place { p with manager := st.manager } })

/-- Purges with the manager at a place. -/
def purge (place : Nat) (now : Timestamp) : StateM (Site σ) (Except Failure (Option PurgeReport)) := do
  let (r, _) ← purgeThrough place () (fun _ targets => .fixed targets) now
  return r

/-- Purges with the newest manager, through a catalog that asks for another run. -/
def purgeNested (now : Timestamp) :
    StateM (Site σ) (Except Failure (Option PurgeReport) × NestedRun) := fun site =>
  purgeThrough site.newest none (fun b targets => .nesting b now targets) now site

/-- Runs the newest manager on schedule. -/
def addService (settings : PurgeSettings) (site : Site σ) : Site σ :=
  { site with service := some (.new settings site.now, site.newest) }

/-- An event of the purge service, and the run that is due after it. -/
def serviceEvent (e : Group.Event) : StateM (Site σ) (List Group.Answer) := fun site =>
  match site.service with
  | none => ([], site)
  | some (service, place) =>
    let (service, answers) := service.step e
    let (service, site) := service.runIfDue (purge place site.wall) site
    (answers, { site with service := some (service, place) })

/-! ## Time -/

/-- Moves both clocks. -/
def advance (time : Nat) : StateM (Site σ) (List Group.Answer) := fun site =>
  serviceEvent (.advance time) { site with
    now := site.now + time
    wall := Int64.ofInt (site.wall.toInt + time)
    pool := site.pool.map fun p => (p.step (.advance time)).1 }

end Site

end Historian
