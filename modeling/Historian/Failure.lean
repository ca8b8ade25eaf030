import Historian.Capability
import Historian.Sample

/-!
# What can go wrong

Each type lists causes, and `message` words them.  An outer cause keeps the inner one, so nothing is
lost on the way up; only a missing capability is lifted, from a storage failure to a failure of the
call that needed it.
-/

set_option autoImplicit false

namespace Historian

/-- A failure of a backend. -/
inductive BackendFailure
  | io (detail : String)
  | unsupported (needed : Capability)
  | unavailable (detail : String)
  | corrupted (detail : String)
  | other (detail : String)
  deriving DecidableEq

def BackendFailure.message : BackendFailure → String
  | io d => "IO error: " ++ d
  | unsupported c => "Operation not supported: " ++ c.name
  | unavailable d => "Backend unavailable: " ++ d
  | corrupted d => "Corrupted data: " ++ d
  | other d => d

/-- A failure of queued writing. -/
inductive IntakeFailure
  | settings (detail : String)
  | closed (detail : String)
  | backpressure (detail : String)
  | disabled
  | shutdown (detail : String)
  deriving DecidableEq

namespace IntakeFailure

def message : IntakeFailure → String
  | settings d => "Configuration error: " ++ d
  | closed d => "Channel closed: " ++ d
  | backpressure d => "Backpressure: " ++ d
  | disabled => "Async writes disabled"
  | shutdown d => "Shutdown error: " ++ d

/-- The queue takes no more values. -/
def queueClosed : IntakeFailure := closed "write queue is shut down"

/-- The queue holds as many values as it may. -/
def queueFull (capacity : Nat) : IntakeFailure :=
  backpressure ("write queue is full (" ++ toString capacity ++ " values)")

/-- Values were still queued when the time for stopping ran out. -/
def drainTimeout (remaining : Nat) : IntakeFailure :=
  shutdown ("timed out waiting for " ++ toString remaining ++ " queued writes")

end IntakeFailure

/-- What is wrong with an argument. -/
inductive BadArgument
  | windowInverted (start stop : Timestamp)
  | negativeLimit (limit : Int)
  | zeroChunk
  | zeroCombinedChunk
  | other (detail : String)
  deriving DecidableEq

def BadArgument.message : BadArgument → String
  | windowInverted start stop =>
    "to time " ++ toString stop.toInt ++ " must be greater than or equal to from time " ++
      toString start.toInt
  | negativeLimit l => "limit " ++ toString l ++ " must not be negative"
  | zeroChunk => "chunk size must be greater than zero"
  | zeroCombinedChunk => "minimum combined chunk size must be greater than zero"
  | other d => d

/-- A setting that no database can be built from. -/
inductive BadSetting
  | outOfRange (field value low high : String)
  | malformed (field detail : String)
  deriving DecidableEq

def BadSetting.message : BadSetting → String
  | outOfRange field value low high =>
    field ++ " value " ++ value ++ " is out of range [" ++ low ++ ", " ++ high ++ "]"
  | malformed field detail => "Invalid format for " ++ field ++ ": " ++ detail

/-- What is wrong with how a database is set up. -/
inductive BadConfiguration
  | noBackend
  | noRuntime
  | unreadable (path reason : String)
  /-- The file can be read but holds no settings. -/
  | malformedFile (path : String)
  /-- The settings hold a number that a file cannot. -/
  | unwritable
  | setting (cause : BadSetting)
  | other (detail : String)
  deriving DecidableEq

def BadConfiguration.message : BadConfiguration → String
  | noBackend => "a storage backend is required"
  | noRuntime => "asynchronous writes require a tokio runtime"
  | unreadable path reason => "Failed to read config file " ++ path ++ ": " ++ reason
  | malformedFile path => "Failed to parse config file " ++ path
  | unwritable => "Failed to serialize config"
  | setting cause => cause.message
  | other d => d

/-- A failure of a call to the database. -/
inductive Failure
  | invalidArgument (cause : BadArgument)
  | unsupported (needed : Capability)
  | storage (cause : BackendFailure)
  | ingestion (cause : IntakeFailure)
  | configuration (cause : BadConfiguration)
  | io (detail : String)
  deriving DecidableEq

namespace Failure

def message : Failure → String
  | invalidArgument cause => "Invalid argument: " ++ cause.message
  | unsupported c => "Unsupported capability: " ++ c.name
  | storage cause => "Storage error: " ++ cause.message
  | ingestion cause => "Ingestion error: " ++ cause.message
  | configuration cause => "Configuration error: " ++ cause.message
  | io d => "IO error: " ++ d

/-- A backend failure as the failure of the call that met it. -/
def ofBackend : BackendFailure → Failure
  | .unsupported c => .unsupported c
  | e => .storage e

/-- Whether the call was refused for its arguments. -/
def isInvalidArgument : Failure → Bool
  | invalidArgument _ => true
  | _ => false

/-- Whether the call needed a capability that is missing. -/
def isUnsupported : Failure → Bool
  | unsupported _ => true
  | _ => false

end Failure

/-- Fails unless `c` is declared. -/
def Capabilities.require (s : Capabilities) (c : Capability) : Except BackendFailure Unit :=
  if s.supports c then .ok () else .error (.unsupported c)

end Historian
