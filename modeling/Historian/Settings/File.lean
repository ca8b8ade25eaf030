import Historian.Schema
import Historian.Toml.Reader
import Historian.Toml.Writer

/-!
# Settings as documents, and in files

Settings are kept in a TOML file.  A field that is not there has its usual value, which is not always
the value that is left out in writing: a purge without a default period is written without one, and
reads back with the usual period.
-/

set_option autoImplicit false

namespace Historian

/-! ## Documents -/

section

open Document

namespace Period

def toDocument (p : Period) : Document :=
  .table [("count", natDocument p.count.toNat), ("unit", .text p.unit.name)]

def ofDocument (dl : Dialect) : Decoder Period := fun d => do
  match ← d.slots dl ["count", "unit"] with
  | [count, unit] =>
    return ⟨← count.required halfWordOfDocument, ← unit.required (choice dl PeriodUnit.named)⟩
  | _ => none

end Period

namespace ReadSettings

def toDocument (s : ReadSettings) : Document :=
  .table [("chunk_size", orNullDocument natDocument s.chunkSize),
    ("min_combined_chunk_size", natDocument s.minCombinedChunk)]

def ofDocument (dl : Dialect) : Decoder ReadSettings := fun d => do
  match ← d.slots dl ["chunk_size", "min_combined_chunk_size"] with
  | [chunk, least] =>
    return ⟨← chunk.orElse (nullable (asUnsigned 64)) none,
      ← least.orElse (asUnsigned 64) ReadSettings.default.minCombinedChunk⟩
  | _ => none

end ReadSettings

namespace WriterSettings

def toDocument (s : WriterSettings) : Document :=
  .table [("num_workers", natDocument s.workers), ("max_batch_size", natDocument s.maxBatch),
    ("max_batch_delay_ms", natDocument s.maxDelay), ("queue_capacity", natDocument s.capacity),
    ("overflow", .text s.overflow.name)]

def ofDocument (dl : Dialect) : Decoder WriterSettings := fun d => do
  match ← d.slots dl
      ["num_workers", "max_batch_size", "max_batch_delay_ms", "queue_capacity", "overflow"] with
  | [workers, batch, delay, capacity, overflow] =>
    return ⟨← workers.orElse (asUnsigned 64) default.workers, ← batch.orElse (asUnsigned 64) default.maxBatch,
      ← delay.orElse (asUnsigned 64) default.maxDelay, ← capacity.orElse (asUnsigned 64) default.capacity,
      ← overflow.orElse (choice dl Overflow.named) default.overflow⟩
  | _ => none

end WriterSettings

namespace PurgeSettings

def toDocument (s : PurgeSettings) : Document :=
  .table [("enabled", .bool s.enabled), ("interval_secs", natDocument s.intervalSeconds),
    ("run_on_start", .bool s.runOnStart),
    ("default_period", orNullDocument Period.toDocument s.defaultPeriod)]

def ofDocument (dl : Dialect) : Decoder PurgeSettings := fun d => do
  match ← d.slots dl ["enabled", "interval_secs", "run_on_start", "default_period"] with
  | [enabled, interval, onStart, period] =>
    return ⟨← enabled.orElse asBool default.enabled,
      ← interval.orElse (asUnsigned 64) default.intervalSeconds,
      ← onStart.orElse asBool default.runOnStart,
      ← period.orElse (nullable (Period.ofDocument dl)) default.defaultPeriod⟩
  | _ => none

end PurgeSettings

namespace LogSettings

def toDocument (s : LogSettings) : Document :=
  .table [("log_level", .text s.level), ("structured_logging", .bool s.structured)]

def ofDocument (dl : Dialect) : Decoder LogSettings := fun d => do
  match ← d.slots dl ["log_level", "structured_logging"] with
  | [level, structured] =>
    return ⟨← level.orElse asText default.level, ← structured.orElse asBool default.structured⟩
  | _ => none

end LogSettings

namespace Settings

def toDocument (s : Settings) : Document :=
  .table [("store", s.read.toDocument), ("writer", orNullDocument WriterSettings.toDocument s.writer),
    ("purge", s.purge.toDocument), ("monitoring", s.log.toDocument)]

def ofDocument (dl : Dialect) : Decoder Settings := fun d => do
  match ← d.slots dl ["store", "writer", "purge", "monitoring"] with
  | [read, writer, purge, log] =>
    return ⟨← read.orElse (ReadSettings.ofDocument dl) .default,
      ← writer.orElse (nullable (WriterSettings.ofDocument dl)) none,
      ← purge.orElse (PurgeSettings.ofDocument dl) .default,
      ← log.orElse (LogSettings.ofDocument dl) .default⟩
  | _ => none

end Settings

end

/-! ## Files -/

namespace Settings

/-- The settings of a TOML text. -/
def ofText? (text : String) : Option Settings := (Toml.read text).bind (ofDocument Toml.dialect)

/-- The settings of a file with the given bytes, or without any if it is missing. -/
def load (path : String) (bytes : Option ByteArray) : Except Failure Settings :=
  match bytes with
  | none => .error (.configuration (.unreadable path "No such file or directory (os error 2)"))
  | some bytes =>
    match String.fromUTF8? bytes with
    | none => .error (.configuration (.unreadable path "stream did not contain valid UTF-8"))
    | some text =>
      match ofText? text with
      | none => .error (.configuration (.malformedFile path))
      | some s => .ok s

/-- The text that the settings are kept in. -/
def save (s : Settings) : Except Failure String :=
  match Toml.write s.toDocument with
  | none => .error (.configuration .unwritable)
  | some text => .ok text

end Settings

end Historian
