import Historian.Queue.Pool
import Historian.Settings

/-!
# Setting up a database

A `Setup` says how a database is to read and whether it queues writes; `Setup.build` makes a
`Handle` of it and a backend.  The backend is looked at first, then the chunk sizes, and only then
what queued writing needs.
-/

set_option autoImplicit false

namespace Historian

/-- A database, with its writer pool if writes can be queued. -/
structure Handle (σ : Type) where
  database : Database σ
  pool : Option Pool

/-- How a database is to be set up: writes are queued if there are settings for that, and they need
a runtime for the workers.  `meterTick` is the tick, in milliseconds, of the meter of written
samples. -/
structure Setup where
  read : ReadSettings
  writer : Option WriterSettings
  hasRuntime : Bool
  meterTick : Nat

namespace Setup

/-- The usual way of reading, and no queued writes. -/
def default : Setup := ⟨.default, none, true, RateMeter.defaultTick⟩

/-- Reads and writes as the settings say. -/
def withSettings (setup : Setup) (settings : Settings) : Setup :=
  { setup with read := settings.read, writer := settings.writer }

/-- The pool of the settings, if they allow one. -/
def startPool (writer : WriterSettings) (tick now : Nat) : Except Failure Pool :=
  match h : writer.problem? with
  | some p => .error (.ingestion (.settings p.message))
  | none => .ok (.start writer (WriterSettings.problem?_eq_none_iff.1 h) tick now)

/-- Builds a database over a backend. -/
def build {σ : Type} (setup : Setup) (backend : Option (Backend σ)) (now : Nat) (s : σ) :
    Except Failure (Handle σ) := do
  let some b := backend | .error (.configuration .noBackend)
  let database ← Database.new b setup.read s
  match setup.writer with
  | none => return ⟨database, none⟩
  | some writer =>
    if setup.hasRuntime then
      let pool ← startPool writer setup.meterTick now
      return ⟨database, some pool⟩
    else .error (.configuration .noRuntime)

end Setup

end Historian
