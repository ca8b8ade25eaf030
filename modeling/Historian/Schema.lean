import Historian.Document
import Historian.Settings
import Historian.Database.Rows
import Historian.Purge
import Historian.Service.Group

/-!
# Documents of domain values

For each type of value that is exchanged, how it is written as a document and read from one.  Fields
are written in a fixed order; in reading, unknown fields are passed over.
-/

set_option autoImplicit false

namespace Historian

open Document

/-! ## Scalars -/

/-- A whole number. -/
def natDocument (n : Nat) : Document := .integer n

/-- A value that may be null. -/
def orNullDocument {α : Type} (write : α → Document) : Option α → Document
  | some x => write x
  | none => .null

/-- A time. -/
def Timestamp.toDocument (t : Timestamp) : Document := .integer t.toInt

/-- A time. -/
def Timestamp.ofDocument : Decoder Timestamp := fun d =>
  (asSigned 64 d).map Int64.ofInt

/-- A number of 64 bits without a sign. -/
def wordOfDocument : Decoder UInt64 := fun d => (asUnsigned 64 d).map UInt64.ofNat

/-- A number of 32 bits without a sign. -/
def halfWordOfDocument : Decoder UInt32 := fun d =>
  (asUnsigned 32 d).map UInt32.ofNat

/-- The word filed for a value in a table of words. -/
def wordFor {α : Type} [DecidableEq α] (x : α) : List (String × α) → String
  | [] => ""
  | (s, y) :: rest => if x = y then s else wordFor x rest

/-! ## Words -/

/-- The words for directions. -/
def Direction.named : List (String × Direction) :=
  [("Ascending", .ascending), ("Descending", .descending)]

/-- The words for capabilities in documents. -/
def Capability.named : List (String × Capability) :=
  [("Delete", .delete), ("DeleteAllBefore", .deleteAllBefore), ("DeleteAll", .deleteAll),
    ("DeleteOrphaned", .deleteOrphaned), ("RetentionPolicy", .retentionPolicy),
    ("TopSeries", .topSeries)]

/-! ## Samples -/

namespace Point

def toDocument (p : Point) : Document :=
  .table [("point_id", natDocument p.id.toNat), ("series_id", natDocument p.series.toNat)]

def ofDocument (dl : Dialect) : Decoder Point := fun d => do
  match ← d.slots dl ["point_id", "series_id"] with
  | [id, series] =>
    return ⟨← id.required halfWordOfDocument, ← series.required wordOfDocument⟩
  | _ => none

end Point

namespace Image

def toDocument (i : Image) : Document :=
  .table [("id", natDocument i.id.toNat), ("extension", .text i.extension)]

def ofDocument (dl : Dialect) : Decoder Image := fun d => do
  match ← d.slots dl ["id", "extension"] with
  | [id, extension] => return ⟨← id.required wordOfDocument, ← extension.required asText⟩
  | _ => none

end Image

namespace Payload

/-- The kinds of payload in documents. -/
inductive Kind
  | number
  | state
  | flag
  | text
  | image
  deriving DecidableEq

/-- The words for the kinds. -/
def Kind.named : List (String × Kind) :=
  [("Numeric", .number), ("Multistate", .state), ("Binary", .flag), ("Alphanumeric", .text),
    ("Image", .image)]

/-- The kind of a payload. -/
def kindOf : Payload → Kind
  | .number _ => .number
  | .state _ => .state
  | .flag _ => .flag
  | .text _ => .text
  | .image _ => .image

/-- The content of a payload without its kind. -/
def contentDocument : Payload → Document
  | .number x => .real x
  | .state n => .integer n.toInt
  | .flag b => .bool b
  | .text s => .text s
  | .image i => i.toDocument

/-- A payload is written as its kind beside its content. -/
def toDocument (p : Payload) : Document :=
  .table [("type", .text (wordFor p.kindOf Kind.named)), ("value", p.contentDocument)]

/-- The content of a payload of a known kind. -/
def ofContent (dl : Dialect) : Kind → Decoder Payload
  | .number, d => (asReal d).map .number
  | .state, d => (asSigned 32 d).map fun n => .state (Int32.ofInt n)
  | .flag, d => (asBool d).map .flag
  | .text, d => (asText d).map .text
  | .image, d => (Image.ofDocument dl d).map .image

def ofDocument (dl : Dialect) : Decoder Payload := fun d => do
  match ← d.slots dl ["type", "value"] with
  | [kind, content] =>
    let k ← kind.required (choice dl Kind.named)
    content.required (ofContent dl k)
  | _ => none

end Payload

namespace Sample

def toDocument (s : Sample) : Document :=
  .table [("timestamp", s.time.toDocument), ("value", s.payload.toDocument),
    ("annotation", orNullDocument .text s.note)]

def ofDocument (dl : Dialect) : Decoder Sample := fun d => do
  match ← d.slots dl ["timestamp", "value", "annotation"] with
  | [time, payload, note] =>
    return ⟨← time.required Timestamp.ofDocument, ← payload.required (Payload.ofDocument dl),
      ← note.optional (nullable asText)⟩
  | _ => none

end Sample

namespace Row

def toDocument (r : Row) : Document :=
  .table [("series_id", natDocument r.series.toNat), ("timestamp", r.time.toDocument),
    ("value", r.payload.toDocument), ("annotation", orNullDocument .text r.note)]

def ofDocument (dl : Dialect) : Decoder Row := fun d => do
  match ← d.slots dl ["series_id", "timestamp", "value", "annotation"] with
  | [series, time, payload, note] =>
    return ⟨← series.required wordOfDocument, ← time.required Timestamp.ofDocument,
      ← payload.required (Payload.ofDocument dl), ← note.optional (nullable asText)⟩
  | _ => none

end Row

namespace Bookend

def toDocument (b : Bookend) : Document :=
  .table [("series_id", natDocument b.series.toNat), ("timestamp", b.time.toDocument),
    ("value", orNullDocument Payload.toDocument b.payload),
    ("annotation", orNullDocument .text b.note)]

def ofDocument (dl : Dialect) : Decoder Bookend := fun d => do
  match ← d.slots dl ["series_id", "timestamp", "value", "annotation"] with
  | [series, time, payload, note] =>
    return ⟨← series.required wordOfDocument, ← time.required Timestamp.ofDocument,
      ← payload.optional (nullable (Payload.ofDocument dl)), ← note.optional (nullable asText)⟩
  | _ => none

end Bookend

/-! ## Windows and counts -/

namespace Window

def toDocument (w : Window) : Document :=
  .table [("from", orNullDocument Timestamp.toDocument w.start),
    ("to", orNullDocument Timestamp.toDocument w.stop)]

/-- Reads a window without checking that its ends are in order. -/
def ofDocument (dl : Dialect) : Decoder Window := fun d => do
  match ← d.slots dl ["from", "to"] with
  | [start, stop] =>
    return ⟨← start.optional (nullable Timestamp.ofDocument),
      ← stop.optional (nullable Timestamp.ofDocument)⟩
  | _ => none

end Window

namespace Span

def toDocument (s : Span) : Document :=
  .table [("start_time", s.first.toDocument), ("end_time", s.last.toDocument)]

def ofDocument (dl : Dialect) : Decoder Span := fun d => do
  match ← d.slots dl ["start_time", "end_time"] with
  | [first, last] =>
    return ⟨← first.required Timestamp.ofDocument, ← last.required Timestamp.ofDocument⟩
  | _ => none

end Span

namespace SeriesCount

def toDocument (c : SeriesCount) : Document :=
  .table [("series_id", natDocument c.series.toNat), ("count", natDocument c.count)]

def ofDocument (dl : Dialect) : Decoder SeriesCount := fun d => do
  match ← d.slots dl ["series_id", "count"] with
  | [series, count] => return ⟨← series.required wordOfDocument, ← count.required (asUnsigned 64)⟩
  | _ => none

end SeriesCount

/-! ## Reports -/

/-- A status is its word; a failure also gives its reason. -/
def ServiceStatus.toDocument : ServiceStatus → Document
  | idle => .text "Idle"
  | running => .text "Running"
  | stopped => .text "Stopped"
  | failed reason => .table [("Failed", .text reason)]

def PurgeReport.toDocument (r : PurgeReport) : Document :=
  .table [("retention_policy_applied", .bool r.retentionApplied),
    ("per_point_skipped", .bool r.pointsSkipped), ("points_purged", natDocument r.pointsPurged),
    ("values_deleted", natDocument r.valuesDeleted),
    ("orphan_cleanup_skipped", .bool r.orphansSkipped),
    ("orphans_deleted", orNullDocument natDocument r.orphansDeleted)]

end Historian
