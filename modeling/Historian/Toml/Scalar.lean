import Historian.Number.Binary64
import Historian.Text.Quoted
import Historian.Toml.Quoting

/-!
# Numbers and times in TOML

Whole numbers have 64 bits with a sign.  They are decimal, or hexadecimal, octal or binary after a
mark; single underscores may stand between digits, and a decimal number has no leading zeros.  A
number with a point or an exponent is a double, and so are `inf` and `nan`.

A date, a time of day, or both, is read for its form only: its text is kept.
-/

set_option autoImplicit false

namespace Historian.Toml

/-- A number or a time. -/
inductive Scalar
  | integer (n : Int)
  | real (x : Binary64)
  | time (text : String)

namespace Scalar

/-! ## Digits -/

/-- Digits with single underscores between them, and the rest. -/
def digitRun (isDigit : Char → Bool) : List Char → List Char × List Char
  | [] => ([], [])
  | [c] => if isDigit c then ([c], []) else ([], [c])
  | c :: d :: rest =>
    if isDigit c then
      match d with
      | '_' =>
        match digitRun isDigit rest with
        | ([], _) => ([c], '_' :: rest)
        | (ds, left) => (c :: ds, left)
      | _ => let (ds, left) := digitRun isDigit (d :: rest); (c :: ds, left)
    else ([], c :: d :: rest)

/-- A nonempty run of digits. -/
def digits1 (isDigit : Char → Bool) (cs : List Char) : Option (List Char × List Char) :=
  match digitRun isDigit cs with
  | ([], _) => none
  | found => some found

/-- The number that digits spell in a base of at most sixteen. -/
def valueOf (base : Nat) (ds : List Char) : Nat :=
  ds.foldl (fun n c => n * base + (Text.hexValue? c).getD 0) 0

/-- Whether a character is a digit in a base of at most sixteen. -/
def isDigitOf (base : Nat) (c : Char) : Bool := (Text.hexValue? c).any (· < base)

/-! ## Numbers -/

/-- A sign, if there is one: whether it is a minus, and the rest. -/
def sign : List Char → Bool × List Char
  | '-' :: rest => (true, rest)
  | '+' :: rest => (false, rest)
  | cs => (false, cs)

/-- A whole number of a base, after its mark. -/
def marked (base : Nat) (cs : List Char) : Option (Scalar × List Char) := do
  let (ds, rest) ← digits1 (isDigitOf base) cs
  let n := valueOf base ds
  if fitsSigned 64 n then return (integer n, rest) else none

/-- The digits of a whole number: a zero alone, or digits that begin with another one. -/
def whole : List Char → Option (List Char × List Char)
  | '0' :: rest => some (['0'], rest)
  | cs => digits1 Char.isDigit cs

/-- The digits after a point, if there is one. -/
def fraction : List Char → Option (List Char × List Char)
  | '.' :: rest => digits1 Char.isDigit rest
  | cs => some ([], cs)

/-- An exponent, if there is one. -/
def exponent (cs : List Char) : Option (Option Int × List Char) :=
  match cs with
  | c :: rest =>
    if c == 'e' || c == 'E' then do
      let (negative, rest) := sign rest
      let (ds, rest) ← digits1 Char.isDigit rest
      let e : Int := valueOf 10 ds
      return (some (if negative then -e else e), rest)
    else some (none, cs)
  | [] => some (none, [])

/-- A decimal number.  One that is too large for a double is refused when it is positive. -/
def decimal (negative : Bool) (cs : List Char) : Option (Scalar × List Char) := do
  let (ds, rest) ← whole cs
  let (fs, rest) ← fraction rest
  let (e, rest) ← exponent rest
  if fs.isEmpty && e.isNone then
    let n : Int := if negative then -(valueOf 10 ds : Int) else valueOf 10 ds
    if fitsSigned 64 n then return (integer n, rest) else none
  else
    let x := Binary64.ofDecimal negative (valueOf 10 (ds ++ fs)) (e.getD 0 - (fs.length : Int))
    if x.isInfinite && !negative then none else return (real x, rest)

/-- A number. -/
def number (cs : List Char) : Option (Scalar × List Char) :=
  match cs with
  | '0' :: 'x' :: rest => marked 16 rest
  | '0' :: 'o' :: rest => marked 8 rest
  | '0' :: 'b' :: rest => marked 2 rest
  | _ =>
    let (negative, rest) := sign cs
    match rest with
    | 'i' :: 'n' :: 'f' :: rest =>
      some (real (.ofMagnitude negative Binary64.infinityBits), rest)
    | 'n' :: 'a' :: 'n' :: rest =>
      some (real (.ofMagnitude negative (Binary64.infinityBits + twoTo 51)), rest)
    | _ => decimal negative rest

/-! ## Times -/

/-- A number of exactly `width` digits, from `low` to `high`. -/
def fixed (width low high : Nat) (cs : List Char) : Option (Nat × List Char) :=
  let ds := cs.take width
  let n := valueOf 10 ds
  if ds.length = width ∧ ds.all Char.isDigit = true ∧ low ≤ n ∧ n ≤ high then some (n, cs.drop width)
  else none

/-- The rest after a character. -/
def expect (c : Char) : List Char → Option (List Char)
  | d :: rest => if d == c then some rest else none
  | [] => none

/-- The number of days of a month. -/
def daysOf (year month : Nat) : Nat :=
  if month = 2 then if year % 4 = 0 ∧ (year % 100 ≠ 0 ∨ year % 400 = 0) then 29 else 28
  else if month = 4 ∨ month = 6 ∨ month = 9 ∨ month = 11 then 30
  else 31

/-- The rest after a date. -/
def date (cs : List Char) : Option (List Char) := do
  let (year, cs) ← fixed 4 0 9999 cs
  let cs ← expect '-' cs
  let (month, cs) ← fixed 2 1 12 cs
  let cs ← expect '-' cs
  let (_, cs) ← fixed 2 1 (daysOf year month) cs
  return cs

/-- The rest after a time of day. -/
def timeOfDay (cs : List Char) : Option (List Char) := do
  let (_, cs) ← fixed 2 0 23 cs
  let cs ← expect ':' cs
  let (_, cs) ← fixed 2 0 59 cs
  let cs ← expect ':' cs
  let (_, cs) ← fixed 2 0 60 cs
  match cs with
  | '.' :: rest =>
    if (rest.takeWhile Char.isDigit).isEmpty then none else return rest.dropWhile Char.isDigit
  | _ => return cs

/-- The rest after an offset from universal time, if there is one. -/
def offset (cs : List Char) : List Char :=
  match cs with
  | [] => []
  | c :: rest =>
    if c == 'Z' || c == 'z' then rest
    else if c == '+' || c == '-' then
      let after := do
        let (_, rest) ← fixed 2 0 23 rest
        let rest ← expect ':' rest
        let (_, rest) ← fixed 2 0 59 rest
        return rest
      after.getD cs
    else cs

/-- The rest after a time of day that follows a date, if there is one. -/
def timeAfterDate (cs : List Char) : List Char :=
  match cs with
  | [] => []
  | c :: rest =>
    if c == 'T' || c == 't' || c == ' ' then ((timeOfDay rest).map offset).getD cs else cs

/-- A date, a time of day, or both. -/
def calendarTime (cs : List Char) : Option (Scalar × List Char) := do
  let rest ← ((date cs).map timeAfterDate) <|> timeOfDay cs
  return (time (String.ofList (cs.take (cs.length - rest.length))), rest)

/-- A number or a time. -/
def read (cs : List Char) : Option (Scalar × List Char) := calendarTime cs <|> number cs

end Scalar

end Historian.Toml
