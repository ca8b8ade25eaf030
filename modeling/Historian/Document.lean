import Historian.Number.Binary64

/-!
# Structured documents

A `Document` is what a JSON text or a configuration file holds: scalars, lists, and tables whose
entries keep their order and may repeat a key.  Typed data is read from it by a `Decoder`.

A record may be written as a table, by field name, or as a list, by position.  `Dialect` states the
two points on which JSON and configuration files differ.

* `Document.slots` finds the fields of a record in either form, and refuses a repeated field.
* `Slot.required`, `Slot.optional` and `Slot.orElse` say what a missing field means.
* `Document.choice` reads one of a fixed list of words.
-/

set_option autoImplicit false

namespace Historian

/-- A document. -/
inductive Document
  | null
  | bool (b : Bool)
  | integer (n : Int)
  | real (x : Binary64)
  | text (s : String)
  /-- A well-formed string whose escapes denote no text. -/
  | brokenText
  | list (items : List Document)
  | table (entries : List (String × Document))
  deriving Inhabited

/-- How a kind of text writes records and choices: whether a record written as a list may be
followed by further items, and whether a document stands for the absent content of a word written as
a table. -/
structure Dialect where
  allowsExtraItems : Bool
  isUnit : Document → Bool

/-- Reads a value from a document, or refuses it. -/
abbrev Decoder (α : Type) := Document → Option α

/-- A record's field, as found: omitted where a table has no such entry, and cut where a list ends
before it. -/
inductive Slot
  | given (d : Document)
  | omitted
  | cut

namespace Slot

/-- A field that must be written. -/
def required {α : Type} (read : Decoder α) : Slot → Option α
  | given d => read d
  | _ => none

/-- A field that stands for `value` when it is not written. -/
def orElse {α : Type} (read : Decoder α) (value : α) : Slot → Option α
  | given d => read d
  | _ => some value

/-- A field that a table may leave out and a list may not. -/
def optional {α : Type} (read : Decoder (Option α)) : Slot → Option (Option α)
  | given d => read d
  | omitted => some none
  | cut => none

end Slot

namespace Document

/-- The entries of a table filed under `key`. -/
def filed (key : String) (entries : List (String × Document)) : List Document :=
  (entries.filter fun e => e.1 == key).map (·.2)

/-- The fields of a record, in the order of `names`.  Entries with other names are passed over. -/
def slots (dialect : Dialect) (names : List String) : Document → Option (List Slot)
  | table entries =>
    names.mapM fun name =>
      match filed name entries with
      | [] => some .omitted
      | [d] => some (.given d)
      | _ => none
  | list items =>
    if items.length ≤ names.length || dialect.allowsExtraItems then
      some ((names.zipIdx).map fun p => (items[p.2]?).elim Slot.cut Slot.given)
    else none
  | _ => none

/-- A value that may be null. -/
def nullable {α : Type} (read : Decoder α) : Decoder (Option α)
  | null => some none
  | d => (read d).map some

/-- A truth value. -/
def asBool : Decoder Bool
  | bool b => some b
  | _ => none

/-- A string. -/
def asText : Decoder String
  | text s => some s
  | _ => none

/-- A whole number that so many bits can hold, one of them for its sign. -/
def asSigned (bits : Nat) : Decoder Int
  | integer n => if fitsSigned bits n then some n else none
  | _ => none

/-- A whole number that so many bits can hold, without a sign. -/
def asUnsigned (bits : Nat) : Decoder Nat
  | integer n => if fitsUnsigned bits n then some n.toNat else none
  | _ => none

/-- A finite number. -/
def asReal : Decoder Binary64
  | integer n => some (.ofInt n)
  | real x => if x.isInfinite || x.isNaN then none else some x
  | _ => none

/-- One of the words of `options`, also written as a table of that word with no content. -/
def choice {α : Type} (dialect : Dialect) (options : List (String × α)) : Decoder α
  | text s => options.lookup s
  | table [(s, d)] => if dialect.isUnit d then options.lookup s else none
  | _ => none

/-! ## Looking into a document -/

/-- The entry of a table, the first if a key repeats. -/
def get? (d : Document) (key : String) : Option Document :=
  match d with
  | table entries => (filed key entries).head?
  | _ => none

/-- The entry of a table; null if there is none. -/
def get (d : Document) (key : String) : Document := (d.get? key).getD null

/-- The entry of a table, unless it is null. -/
def field? (d : Document) (key : String) : Option Document :=
  match d.get? key with
  | some null => none
  | found => found

/-- The items of a list. -/
def items : Document → List Document
  | list xs => xs
  | _ => []

/-- The item of a list at a position; null if there is none. -/
def item (d : Document) (i : Nat) : Document := d.items.getD i null

/-- A whole number of any size. -/
def asInt : Decoder Int
  | integer n => some n
  | _ => none

end Document

end Historian
