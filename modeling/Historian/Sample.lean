import Historian.Number.Decimal

/-!
# Samples

What a point records: a payload at a time, perhaps with a note.  A `Sample` does not say which
series it belongs to, a `Row` does, and a `Bookend` is a row at the edge of a read that may carry
no payload.
-/

set_option autoImplicit false

namespace Historian

/-- Milliseconds since the epoch. -/
abbrev Timestamp := Int64

/-- The key of one point's value history. -/
abbrev SeriesId := UInt64

/-- A configured point: its own id, and the series it writes to. -/
structure Point where
  id : UInt32
  series : SeriesId
  deriving DecidableEq

/-- A stored picture. -/
structure Image where
  id : UInt64
  extension : String
  deriving DecidableEq

/-- What was measured. -/
inductive Payload
  | number (x : Binary64)
  | state (n : Int32)
  | flag (b : Bool)
  | text (s : String)
  | image (i : Image)
  deriving DecidableEq

namespace Payload

/-- The word for the kind of payload. -/
def kind : Payload → String
  | number _ => "numeric"
  | state _ => "multistate"
  | flag _ => "binary"
  | text _ => "alphanumeric"
  | image _ => "image"

/-- The payload as a number, where it has one. -/
def asNumber? : Payload → Option Binary64
  | number x => some x
  | state n => some (.ofInt n.toInt)
  | flag b => some (.ofInt (if b then 1 else 0))
  | text _ => none
  | image _ => none

/-- The payload for a reader. -/
def display : Payload → String
  | number x => Decimal.positional x
  | state n => toString n.toInt
  | flag b => if b then "true" else "false"
  | text s => s
  | image i => "image:" ++ toString i.id.toNat ++ "." ++ i.extension

end Payload

/-- One measurement of a point. -/
structure Sample where
  time : Timestamp
  payload : Payload
  note : Option String
  deriving DecidableEq

/-- A sample with the series it belongs to. -/
structure Row where
  series : SeriesId
  time : Timestamp
  payload : Payload
  note : Option String
  deriving DecidableEq

/-- An edge entry of a read: the payload in force at `time`, if there is one. -/
structure Bookend where
  series : SeriesId
  time : Timestamp
  payload : Option Payload
  note : Option String
  deriving DecidableEq

/-- The sample as a row of `series`. -/
def Sample.inSeries (s : Sample) (series : SeriesId) : Row := ⟨series, s.time, s.payload, s.note⟩

/-- The row without its series. -/
def Row.sample (r : Row) : Sample := ⟨r.time, r.payload, r.note⟩

@[simp] theorem Row.sample_inSeries (s : Sample) (series : SeriesId) :
    (s.inSeries series).sample = s := rfl

@[simp] theorem Sample.inSeries_sample (r : Row) : r.sample.inSeries r.series = r := rfl

namespace Bookend

/-- The edge entry of a series with nothing in force. -/
def vacant (series : SeriesId) (time : Timestamp) : Bookend := ⟨series, time, none, none⟩

/-- The edge entry that a row makes at its own time. -/
def ofRow (r : Row) : Bookend := ⟨r.series, r.time, some r.payload, r.note⟩

/-- The same entry at another time. -/
def movedTo (b : Bookend) (time : Timestamp) : Bookend := { b with time }

end Bookend

end Historian
