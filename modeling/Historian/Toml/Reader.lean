import Historian.Toml.Scalar
import Historian.Toml.Tree

/-!
# Reading TOML

`Toml.read` takes the texts of the TOML grammar and no others, and gives the table of the whole
text.  Lists and inline tables may lie inside each other to a fixed depth.
-/

set_option autoImplicit false

namespace Historian.Toml

/-- A record written as a list may be followed by further items, and a word has an empty table or
list for content. -/
def dialect : Dialect where
  allowsExtraItems := true
  isUnit
    | .table [] => true
    | .list [] => true
    | _ => false

/-- How deep lists and inline tables may lie inside each other, and how many parts a key may have. -/
def maxDepth : Nat := 79

/-! ## Gaps -/

/-- Drops blanks, line ends and comments. -/
def skipGaps (inComment : Bool) : List Char → List Char
  | [] => []
  | '\r' :: '\n' :: rest => skipGaps false rest
  | c :: rest =>
    if c == '\n' then skipGaps false rest
    else if inComment then if isPlain c then skipGaps true rest else c :: rest
    else if isBlank c then skipGaps false rest
    else if c == '#' then skipGaps true rest
    else c :: rest

/-- The rest after the end of a line, with the blanks and the comment before it. -/
def lineEnd (cs : List Char) : Option (List Char) :=
  let cs := match skip cs with
    | '#' :: rest => rest.dropWhile isPlain
    | cs => cs
  if cs.isEmpty then some [] else newline? cs

/-! ## Keys -/

/-- A character of a key without quotes. -/
def isBare (c : Char) : Bool := c.isAlphanum || c == '_' || c == '-'

/-- One part of a key. -/
def simpleKey (cs : List Char) : Option (String × List Char) :=
  match cs.takeWhile isBare with
  | [] => Quoting.readLine cs
  | ds => some (String.ofList ds, cs.dropWhile isBare)

/-- The parts of a key, with blanks around each of them. -/
def keyParts : Nat → List Char → Option (List String × List Char)
  | 0, _ => none
  | fuel + 1, cs => do
    let (first, cs) ← simpleKey (skip cs)
    match skip cs with
    | '.' :: cs =>
      let (others, cs) ← keyParts fuel cs
      return (first :: others, cs)
    | cs => return ([first], cs)

/-- A key: the parts on the way, and the last one. -/
def dottedKey (cs : List Char) : Option (List String × String × List Char) := do
  let (parts, cs) ← keyParts maxDepth cs
  let last ← parts.getLast?
  return (parts.dropLast, last, cs)

/-! ## Values -/

/-- A number or a time as a document.  A time is a table with an entry of its own, so that no field
is found in it. -/
def scalarDocument : Scalar → Document
  | .integer n => .integer n
  | .real x => .real x
  | .time text => .table [("date-time", .text text)]

/-- The rest of `cs` after `word`. -/
def after? (word : List Char) (cs : List Char) : Option (List Char) :=
  if word.isPrefixOf cs then some (cs.drop word.length) else none

mutual

/-- A value.  `fuel` bounds the values, items and entries still to be read; `depth` the lists and
tables that may still be opened. -/
def value : Nat → (depth : Nat) → List Char → Option (Document × List Char)
  | 0, _, _ => none
  | fuel + 1, depth, cs =>
    match cs with
    | '"' :: _ => (Quoting.read cs).map fun (s, rest) => (.text s, rest)
    | '\'' :: _ => (Quoting.read cs).map fun (s, rest) => (.text s, rest)
    | 't' :: _ => (after? "true".toList cs).map fun rest => (.bool true, rest)
    | 'f' :: _ => (after? "false".toList cs).map fun rest => (.bool false, rest)
    | '[' :: rest =>
      match depth with
      | 0 => none
      | depth + 1 => (items fuel depth (skipGaps false rest)).map fun (ds, rest) => (.list ds, rest)
    | '{' :: rest =>
      match depth with
      | 0 => none
      | depth + 1 =>
        match skip rest with
        | '}' :: rest => some (.table [], rest)
        | rest => (inlineEntries fuel depth [] rest).map fun (es, rest) =>
            ((Tree.table .headed es).toDocument, rest)
    | _ => (Scalar.read cs).map fun (x, rest) => (scalarDocument x, rest)

/-- The items of a list up to its closing bracket, which may follow a comma. -/
def items : Nat → (depth : Nat) → List Char → Option (List Document × List Char)
  | 0, _, _ => none
  | fuel + 1, depth, cs =>
    match cs with
    | ']' :: rest => some ([], rest)
    | _ => do
      let (d, rest) ← value fuel depth cs
      match skipGaps false rest with
      | ']' :: rest => return ([d], rest)
      | ',' :: rest =>
        let (ds, rest) ← items fuel depth (skipGaps false rest)
        return (d :: ds, rest)
      | _ => none

/-- The entries of an inline table up to its closing bracket, added to those before them. -/
def inlineEntries : Nat → (depth : Nat) → Entries → List Char → Option (Entries × List Char)
  | 0, _, _, _ => none
  | fuel + 1, depth, entries, cs => do
    let (path, key, rest) ← dottedKey cs
    let rest ← Scalar.expect '=' rest
    let (d, rest) ← value fuel depth (skip rest)
    let entries ← Tree.insertDotted path key d .headed entries
    match skip rest with
    | '}' :: rest => return (entries, rest)
    | ',' :: rest => inlineEntries fuel depth entries rest
    | _ => none

end

/-! ## Lines -/

/-- The tables so far, and the path of the header in force. -/
structure State where
  root : Entries
  header : List String

/-- A line that gives a key its value. -/
def keyLine (st : State) (cs : List Char) : Option (State × List Char) := do
  let (path, key, rest) ← dottedKey cs
  let rest ← Scalar.expect '=' rest
  let (d, rest) ← value (rest.length + 1) maxDepth (skip rest)
  let rest ← lineEnd rest
  let root ← Tree.change false (Tree.insertDotted path key d) st.header .headed st.root
  return ({ st with root }, rest)

/-- A header after its opening brackets. -/
def headerLine (st : State) (close : List Char) (act : String → Origin → Entries → Option Entries)
    (cs : List Char) : Option (State × List Char) := do
  let (path, key, rest) ← dottedKey cs
  let rest ← after? close rest
  let rest ← lineEnd rest
  let root ← Tree.change false (act key) path .headed st.root
  return (⟨root, path ++ [key]⟩, rest)

/-- One line, or a blank one. -/
def line (st : State) (cs : List Char) : Option (State × List Char) :=
  match cs with
  | '[' :: '[' :: rest => headerLine st [']', ']'] Tree.addTable rest
  | '[' :: rest => headerLine st [']'] Tree.openTable rest
  | '#' :: _ => (lineEnd cs).map fun rest => (st, rest)
  | _ =>
    match newline? cs with
    | some rest => some (st, rest)
    | none => keyLine st cs

/-- All lines; each takes at least one character. -/
def lines : Nat → State → List Char → Option State
  | 0, _, _ => none
  | fuel + 1, st, cs =>
    match skip cs with
    | [] => some st
    | cs => do
      let (st, rest) ← line st cs
      lines fuel st rest

/-- The document of a TOML text.  A byte order mark may come first. -/
def read (text : String) : Option Document :=
  let cs := match text.toList with
    | '\ufeff' :: rest => rest
    | cs => cs
  (lines (cs.length + 1) ⟨[], []⟩ cs).map fun st => (Tree.table .headed st.root).toDocument

end Historian.Toml
