import Historian.Document

/-!
# The tables of a TOML text

A text fills its tables in no fixed order: a header opens a table, a dotted key makes tables on its
way, and both may make tables that are only implied.  `Tree` keeps how each table came about, since
this decides what may still be added to it:

* a table has one header at most, and only an implied table can still be given one;
* dotted keys add only to tables that dotted keys have made;
* a key is given one value.

Inside a list of tables, every path leads to its last table.
-/

set_option autoImplicit false

namespace Historian.Toml

/-- How a table came about: it has a header, or is the table of the whole text; it lies on the way
to a table with a header; or it lies on the way of a dotted key. -/
inductive Origin
  | headed
  | implied
  | dotted
  deriving DecidableEq

/-- What a key stands for. -/
inductive Tree
  | value (d : Document)
  | table (origin : Origin) (entries : List (String × Tree))
  /-- A list of tables, each with a header. -/
  | tables (items : List (List (String × Tree)))

/-- The entries of a table, the oldest first. -/
abbrev Entries := List (String × Tree)

namespace Tree

/-- Replaces the value of a key, which is there. -/
def replace (key : String) (t : Tree) (entries : Entries) : Entries :=
  entries.map fun e => if e.1 == key then (key, t) else e

/-- Replaces the last item of a list. -/
def replaceLast {α : Type} (x : α) (xs : List α) : List α := xs.dropLast ++ [x]

/-- Follows a path from a table and changes the table at its end.  Tables that are missing on the way
are made; a dotted path leads through no table that has a header. -/
def change (isDotted : Bool) (act : Origin → Entries → Option Entries) :
    List String → Origin → Entries → Option Entries
  | [], origin, entries => act origin entries
  | key :: rest, _, entries =>
    match entries.lookup key with
    | none => do
      let made := if isDotted then Origin.dotted else .implied
      let inner ← change isDotted act rest made []
      return entries ++ [(key, table made inner)]
    | some (value _) => none
    | some (tables items) => do
      let inner ← change isDotted act rest .headed (items.getLast?.getD [])
      return replace key (tables (replaceLast inner items)) entries
    | some (table origin inner) =>
      if isDotted ∧ origin = .headed then none
      else do
        let inner ← change isDotted act rest origin inner
        return replace key (table origin inner) entries

/-- Gives a key its value.  A plain key does not add to a table that dotted keys have made, and a
dotted one adds to no other. -/
def setValue (isPlain : Bool) (key : String) (d : Document) (origin : Origin) (entries : Entries) :
    Option Entries :=
  if (origin == .dotted) == isPlain then none
  else if (entries.lookup key).isSome then none
  else some (entries ++ [(key, value d)])

/-- Gives a header to the table of a key. -/
def openTable (key : String) (_ : Origin) (entries : Entries) : Option Entries :=
  match entries.lookup key with
  | none => some (entries ++ [(key, table .headed [])])
  | some (table .implied inner) => some (replace key (table .headed inner) entries)
  | some _ => none

/-- Adds a table to the list of a key. -/
def addTable (key : String) (_ : Origin) (entries : Entries) : Option Entries :=
  match entries.lookup key with
  | none => some (entries ++ [(key, tables [[]])])
  | some (tables items) => some (replace key (tables (items ++ [[]])) entries)
  | some _ => none

/-- Gives the value of a dotted key in a table. -/
def insertDotted (path : List String) (key : String) (d : Document) (origin : Origin)
    (entries : Entries) : Option Entries :=
  change true (setValue path.isEmpty key d) path origin entries

mutual

/-- The document of a tree. -/
def toDocument : Tree → Document
  | value d => d
  | table _ entries => .table (documentsOf entries)
  | tables items => .list (tablesOf items)

/-- The documents of a table's entries. -/
def documentsOf : List (String × Tree) → List (String × Document)
  | [] => []
  | (key, t) :: rest => (key, toDocument t) :: documentsOf rest

/-- The documents of a list of tables. -/
def tablesOf : List (List (String × Tree)) → List Document
  | [] => []
  | entries :: rest => .table (documentsOf entries) :: tablesOf rest

end

end Tree

end Historian.Toml
