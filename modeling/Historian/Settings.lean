import Historian.Database
import Historian.LogFilter
import Historian.Queue.WriterSettings

/-!
# Settings

`Settings` gathers how a database reads, writes, purges and logs.  `Settings.override` lets the
environment replace single fields, and `Settings.validate` names the first field that cannot be
used.
-/

set_option autoImplicit false

namespace Historian

/-! ## Blank characters -/

namespace Text

/-- The code points of blank characters, as ranges. -/
def blankRanges : List (Nat × Nat) :=
  [(0x9, 0xd), (0x20, 0x20), (0x85, 0x85), (0xa0, 0xa0), (0x1680, 0x1680), (0x2000, 0x200a),
    (0x2028, 0x2029), (0x202f, 0x202f), (0x205f, 0x205f), (0x3000, 0x3000)]

/-- Whether a character is blank. -/
def isBlank (c : Char) : Bool := blankRanges.any fun r => r.1 ≤ c.toNat && c.toNat ≤ r.2

/-- The characters without blanks at either end. -/
def trim (cs : List Char) : List Char := ((cs.dropWhile isBlank).reverse.dropWhile isBlank).reverse

example : blankRanges.map (fun r => r.2 + 1 - r.1) = [5, 1, 1, 1, 1, 11, 2, 1, 1, 1] := by decide

end Text

/-! ## What can be set -/

/-- When old values are purged: whether there is a schedule, the seconds between its runs, whether
the first run comes at once, and the period of points without one of their own. -/
structure PurgeSettings where
  enabled : Bool
  intervalSeconds : Nat
  runOnStart : Bool
  defaultPeriod : Option Period
  deriving DecidableEq

/-- The settings used unless others are given: daily, with a year kept. -/
def PurgeSettings.default : PurgeSettings := ⟨true, 86400, false, some ⟨1, .years⟩⟩

/-- Seconds between scheduled runs, at least one. -/
def PurgeSettings.interval (s : PurgeSettings) : Nat := max s.intervalSeconds 1

/-- All settings; values are never queued without settings of the writer. -/
structure Settings where
  read : ReadSettings
  writer : Option WriterSettings
  purge : PurgeSettings
  log : LogSettings
  deriving DecidableEq

namespace Settings

/-- The settings used unless others are given. -/
def default : Settings := ⟨.default, none, .default, .default⟩

/-! ## The environment -/

/-- A whole number of 64 bits without a sign, as variables give it: digits, perhaps after a plus
sign, with blanks around them. -/
def readCount (text : String) : Option Nat :=
  let cs := Text.trim text.toList
  let digits := match cs with
    | '+' :: rest => rest
    | _ => cs
  if digits.isEmpty || !digits.all Char.isDigit then none
  else
    let n : Nat := digits.foldl (fun n c => n * 10 + (c.toNat - '0'.toNat)) 0
    if fitsUnsigned 64 n then some n else none

/-- Changes the settings of queued writing, which are the usual ones if there were none. -/
def changeWriter (s : Settings) (change : WriterSettings → WriterSettings) : Settings :=
  { s with writer := some (change (s.writer.getD .default)) }

/-- Replaces the fields that the environment gives; a number that cannot be read is passed over. -/
def override (s : Settings) (env : String → Option String) : Settings :=
  let s := match (env "PVS_CHUNK_SIZE").bind readCount with
    | some n => { s with read := { s.read with chunkSize := some n } }
    | none => s
  let s := match (env "PVS_WRITER_THREADS").bind readCount with
    | some n => s.changeWriter fun w => { w with workers := n }
    | none => s
  let s := match (env "PVS_QUEUE_CAPACITY").bind readCount with
    | some n => s.changeWriter fun w => { w with capacity := n }
    | none => s
  match env "RUST_LOG" with
  | some level => { s with log := { s.log with level } }
  | none => s

/-! ## Validation -/

/-- The largest chunk size. -/
def maxChunkSize : Nat := 1000000

/-- A number that is not between two others. -/
def outOfRange (field : String) (value low high : Nat) : BadSetting :=
  .outOfRange field (toString value) (toString low) (toString high)

/-- The first setting that cannot be used, if there is one. -/
def problem? (s : Settings) : Option BadSetting :=
  let badChunk := s.read.chunkSize.filter fun n => n = 0 ∨ maxChunkSize < n
  match badChunk with
  | some n => some (outOfRange "store.chunk_size" n 1 maxChunkSize)
  | none =>
    if s.read.minCombinedChunk = 0 then
      some (outOfRange "store.min_combined_chunk_size" 0 1 maxChunkSize)
    else
      match s.writer.bind WriterSettings.problem? with
      | some p => some (.malformed "writer" p.message)
      | none =>
        if s.purge.enabled ∧ s.purge.intervalSeconds = 0 then
          some (outOfRange "purge.interval_secs" 0 1 (twoTo 64 - 1))
        else if (s.purge.defaultPeriod.any fun p => p.count == 0) then
          some (.malformed "purge.default_period" "period must be at least one unit")
        else none

/-- Refuses settings that cannot be used. -/
def validate (s : Settings) : Except Failure Unit :=
  match s.problem? with
  | some p => .error (.configuration (.setting p))
  | none => .ok ()

end Settings

end Historian
