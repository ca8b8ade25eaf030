import Historian.Document
import Historian.Number.Decimal
import Historian.Text.Quoted

/-!
# JSON texts

`Json.read` takes the texts of the JSON grammar and no others; `Json.write` produces the one compact
text of a document.

A number without point or exponent that fits 64 bits is an integer; every other number is the
nearest double, and so is a negative zero.  A string with an escape for half of a character pair is
well formed and has no text.
-/

set_option autoImplicit false

namespace Historian.Json

/-- JSON records end with their last field, and a word has `null` for content. -/
def dialect : Dialect where
  allowsExtraItems := false
  isUnit
    | .null => true
    | _ => false

/-! ## Reading -/

/-- Blanks between tokens. -/
def isBlank (c : Char) : Bool := c == ' ' || c == '\n' || c == '\t' || c == '\r'

/-- Drops blanks. -/
def skip (cs : List Char) : List Char := cs.dropWhile isBlank

/-- Four hexadecimal digits. -/
def hex4 : List Char → Option (Nat × List Char)
  | a :: b :: c :: d :: rest => do
    let a ← Text.hexValue? a
    let b ← Text.hexValue? b
    let c ← Text.hexValue? c
    let d ← Text.hexValue? d
    return (((a * 16 + b) * 16 + c) * 16 + d, rest)
  | _ => none

/-- The letter escapes. -/
def escaped? : Char → Option Char
  | '"' => some '"'
  | '\\' => some '\\'
  | '/' => some '/'
  | 'b' => some '\x08'
  | 'f' => some '\x0c'
  | 'n' => some '\n'
  | 'r' => some '\r'
  | 't' => some '\t'
  | _ => none

/-- The rest of a string after its opening quote.  `text` holds the characters so far, last first,
or nothing once an escape denoted none; each round takes at least one character of the input. -/
def stringTail : Nat → List Char → Option (List Char) → Option (Document × List Char)
  | 0, _, _ => none
  | fuel + 1, cs, text =>
    match cs with
    | [] => none
    | '"' :: rest =>
      some (text.elim .brokenText fun t => .text (String.ofList t.reverse), rest)
    | '\\' :: 'u' :: rest =>
      match hex4 rest with
      | none => none
      | some (n, rest) =>
        if 0xD800 ≤ n ∧ n < 0xDC00 then
          match rest with
          | '\\' :: 'u' :: rest' =>
            match hex4 rest' with
            | none => none
            | some (m, rest') =>
              if 0xDC00 ≤ m ∧ m < 0xE000 then
                let c := Char.ofNat (0x10000 + (n - 0xD800) * 0x400 + (m - 0xDC00))
                stringTail fuel rest' (text.map (c :: ·))
              else stringTail fuel rest none
          | _ => stringTail fuel rest none
        else if 0xDC00 ≤ n ∧ n < 0xE000 then stringTail fuel rest none
        else stringTail fuel rest (text.map (Char.ofNat n :: ·))
    | '\\' :: c :: rest =>
      match escaped? c with
      | some e => stringTail fuel rest (text.map (e :: ·))
      | none => none
    | c :: rest => if c.toNat < 32 then none else stringTail fuel rest (text.map (c :: ·))

/-- The number that a run of digits spells. -/
def digitsValue (ds : List Char) : Nat := ds.foldl (fun n c => n * 10 + (c.toNat - '0'.toNat)) 0

/-- A nonempty run of digits. -/
def digits1 (cs : List Char) : Option (List Char × List Char) :=
  match cs.takeWhile Char.isDigit with
  | [] => none
  | ds => some (ds, cs.dropWhile Char.isDigit)

/-- The part of a number after its point, if it has one. -/
def fraction (cs : List Char) : Option (List Char × List Char) :=
  match cs with
  | '.' :: rest => digits1 rest
  | _ => some ([], cs)

/-- The exponent of a number, if it has one. -/
def exponent (cs : List Char) : Option (Option Int × List Char) :=
  match cs with
  | c :: rest =>
    if c == 'e' || c == 'E' then
      match rest with
      | '-' :: rest => (digits1 rest).map fun (ds, rest) => (some (-(digitsValue ds : Int)), rest)
      | '+' :: rest => (digits1 rest).map fun (ds, rest) => (some (digitsValue ds : Int), rest)
      | _ => (digits1 rest).map fun (ds, rest) => (some (digitsValue ds : Int), rest)
    else some (none, cs)
  | [] => some (none, cs)

/-- A number. -/
def number (cs : List Char) : Option (Document × List Char) := do
  let (negative, cs) := match cs with
    | '-' :: rest => (true, rest)
    | _ => (false, cs)
  let (whole, cs) ← digits1 cs
  if whole.length > 1 && whole.head? == some '0' then none
  let (frac, cs) ← fraction cs
  let (exp, cs) ← exponent cs
  let n : Nat := digitsValue whole
  let fits : Bool := if negative then fitsSigned 64 (-n) && n != 0 else fitsUnsigned 64 n
  if frac.isEmpty && exp.isNone && fits then
    return (.integer (if negative then -(n : Int) else n), cs)
  else
    let e : Int := exp.getD 0 - (frac.length : Int)
    return (.real (.ofDecimal negative (digitsValue (whole ++ frac)) e), cs)

/-- The rest of `cs` after `word`. -/
def after? (word : List Char) (cs : List Char) : Option (List Char) :=
  if word.isPrefixOf cs then some (cs.drop word.length) else none

mutual

/-- A value; `fuel` bounds the number of values, items and entries still to be read. -/
def value : Nat → List Char → Option (Document × List Char)
  | 0, _ => none
  | fuel + 1, cs =>
    match skip cs with
    | '"' :: rest => stringTail (rest.length + 1) rest (some [])
    | '[' :: rest =>
      match skip rest with
      | ']' :: rest => some (.list [], rest)
      | rest => (items fuel rest).map fun (ds, rest) => (.list ds, rest)
    | '{' :: rest =>
      match skip rest with
      | '}' :: rest => some (.table [], rest)
      | rest => (entries fuel rest).map fun (es, rest) => (.table es, rest)
    | 'n' :: rest => (after? "ull".toList rest).map fun rest => (.null, rest)
    | 't' :: rest => (after? "rue".toList rest).map fun rest => (.bool true, rest)
    | 'f' :: rest => (after? "alse".toList rest).map fun rest => (.bool false, rest)
    | rest => number rest

/-- The items of a list up to its closing bracket. -/
def items : Nat → List Char → Option (List Document × List Char)
  | 0, _ => none
  | fuel + 1, cs => do
    let (d, rest) ← value fuel cs
    match skip rest with
    | ']' :: rest => return ([d], rest)
    | ',' :: rest =>
      let (ds, rest) ← items fuel rest
      return (d :: ds, rest)
    | _ => none

/-- The entries of a table up to its closing bracket. -/
def entries : Nat → List Char → Option (List (String × Document) × List Char)
  | 0, _ => none
  | fuel + 1, cs =>
    match skip cs with
    | '"' :: rest => do
      let (key, rest) ← stringTail (rest.length + 1) rest (some [])
      let key ← key.asText
      match skip rest with
      | ':' :: rest =>
        let (d, rest) ← value fuel rest
        match skip rest with
        | '}' :: rest => return ([(key, d)], rest)
        | ',' :: rest =>
          let (es, rest) ← entries fuel rest
          return ((key, d) :: es, rest)
        | _ => none
      | _ => none
    | _ => none

end

/-- The document of a JSON text. -/
def read (text : String) : Option Document :=
  let cs := text.toList
  match value (cs.length + 1) cs with
  | some (d, rest) => if (skip rest).isEmpty then some d else none
  | none => none

/-! ## Writing -/

/-- A character inside a string. -/
def writeChar (c : Char) : List Char :=
  match c with
  | '"' => ['\\', '"']
  | '\\' => ['\\', '\\']
  | '\x08' => ['\\', 'b']
  | '\x0c' => ['\\', 'f']
  | '\n' => ['\\', 'n']
  | '\r' => ['\\', 'r']
  | '\t' => ['\\', 't']
  | _ =>
    if c.toNat < 32 then ['\\', 'u'] ++ Text.hexDigits 4 c.toNat
    else [c]

/-- A string in quotes. -/
def writeText (s : String) : String :=
  "\"" ++ String.ofList (s.toList.flatMap writeChar) ++ "\""

mutual

/-- The compact text of a document; what has no text is written as null. -/
def write : Document → String
  | .null => "null"
  | .brokenText => "null"
  | .bool b => if b then "true" else "false"
  | .integer n => toString n
  | .real x => Decimal.compact x
  | .text s => writeText s
  | .list items => "[" ++ writeItems items ++ "]"
  | .table entries => "\x7b" ++ writeEntries entries ++ "\x7d"

/-- The items of a list. -/
def writeItems : List Document → String
  | [] => ""
  | [d] => write d
  | d :: rest => write d ++ "," ++ writeItems rest

/-- The entries of a table. -/
def writeEntries : List (String × Document) → String
  | [] => ""
  | [(key, d)] => writeText key ++ ":" ++ write d
  | (key, d) :: rest => writeText key ++ ":" ++ write d ++ "," ++ writeEntries rest

end

end Historian.Json
