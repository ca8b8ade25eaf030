import Historian.Document
import Historian.Toml.Quoting

/-!
# Writing TOML

`Toml.write` writes a table of scalars and tables: the scalars of a table come before the tables
inside it, each table has a header and is parted from what comes before by a blank line.

There is no way to write null, so `Toml.storable?` leaves such entries out; whole numbers that do
not fit 64 bits with a sign cannot be written at all.
-/

set_option autoImplicit false

namespace Historian.Toml

mutual

/-- What is left of a document when it is written, if it can be. -/
def storable? : Document → Option Document
  | .integer n => if fitsSigned 64 n then some (.integer n) else none
  | .bool b => some (.bool b)
  | .text s => some (.text s)
  | .table entries => (storableEntries? entries).map .table
  | _ => none

/-- What is left of the entries of a table. -/
def storableEntries? : List (String × Document) → Option (List (String × Document))
  | [] => some []
  | (_, .null) :: rest => storableEntries? rest
  | (key, d) :: rest => do
    let d ← storable? d
    let rest ← storableEntries? rest
    return (key, d) :: rest

end

/-- Whether a key needs no quotes. -/
def isBareKey (key : String) : Bool :=
  !key.isEmpty && key.toList.all fun c => c.isAlphanum || c == '_' || c == '-'

/-- A key. -/
def writeKey (key : String) : String := if isBareKey key then key else Quoting.write key

/-- The entry of a scalar, on a line of its own; tables have none. -/
def scalarLine (key : String) : Document → String
  | .integer n => writeKey key ++ " = " ++ toString n ++ "\n"
  | .bool b => writeKey key ++ " = " ++ (if b then "true" else "false") ++ "\n"
  | .text s => writeKey key ++ " = " ++ Quoting.write s ++ "\n"
  | _ => ""

/-- Whether an entry is written on a line of the table itself. -/
def isScalar : Document → Bool
  | .table _ => false
  | _ => true

/-- The header of a table. -/
def headerOf (path : List String) : String := "[" ++ String.intercalate "." (path.map writeKey) ++ "]\n"

mutual

/-- The tables inside a table at `path`, each with its own text and those inside it. -/
def tablesIn (path : List String) : List (String × Document) → List String
  | [] => []
  | (key, d) :: rest => tableTexts (path ++ [key]) d ++ tablesIn path rest

/-- The texts of a table and of the tables inside it.  A table that holds only tables needs no header
of its own. -/
def tableTexts (path : List String) : Document → List String
  | .table entries =>
    let scalars := entries.filter fun e => isScalar e.2
    let own := headerOf path ++ String.join (scalars.map fun e => scalarLine e.1 e.2)
    (if scalars.isEmpty && !entries.isEmpty then [] else [own]) ++ tablesIn path entries
  | _ => []

end

/-- The text of a storable document. -/
def render : Document → String
  | .table entries =>
    let scalars := entries.filter fun e => isScalar e.2
    let own := String.join (scalars.map fun e => scalarLine e.1 e.2)
    String.intercalate "\n" ((if scalars.isEmpty then [] else [own]) ++ tablesIn [] entries)
  | _ => ""

/-- The text of a document, if it can be written. -/
def write (d : Document) : Option String := (storable? d).map render

end Historian.Toml
