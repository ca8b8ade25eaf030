import Historian.Text.Quoted

/-!
# Strings in TOML

A string is quoted in one of four ways: between double quotes, where a backslash escapes, or between
single quotes, where it does not, and either on one line or, with the quote written three times, on
several.

* `Quoting.read` reads a string of any kind; `Quoting.readLine` reads only strings of one line, as
  keys may be.
* `Quoting.write` picks the plainest kind that can hold a text.

No kind may hold a control character other than tab as it stands, except for line ends on several
lines.
-/

set_option autoImplicit false

namespace Historian.Toml

/-- A space or a tab. -/
def isBlank (c : Char) : Bool := c == ' ' || c == '\t'

/-- Drops blanks. -/
def skip (cs : List Char) : List Char := cs.dropWhile isBlank

/-- A character that may stand in comments and strings: tab, and all that is not a control
character. -/
def isPlain (c : Char) : Bool := c == '\t' || (32 ≤ c.toNat && c.toNat != 127)

/-- The rest after a line end. -/
def newline? : List Char → Option (List Char)
  | '\n' :: rest => some rest
  | '\r' :: '\n' :: rest => some rest
  | _ => none

/-- Drops blanks and line ends. -/
def skipLines : List Char → List Char
  | [] => []
  | '\r' :: '\n' :: rest => skipLines rest
  | c :: rest => if isBlank c || c == '\n' then skipLines rest else c :: rest

namespace Quoting

/-! ## Reading -/

/-- The character of a code point, if it is one. -/
def charOf? (n : Nat) : Option Char := if n.isValidChar then some (Char.ofNat n) else none

/-- A character given by a number of hexadecimal digits. -/
def codePoint (width : Nat) (cs : List Char) : Option (Char × List Char) := do
  let digits := cs.take width
  if digits.length = width ∧ digits.all (fun c => (Text.hexValue? c).isSome) = true then
    return (← charOf? (Text.hexNumber digits), cs.drop width)
  else none

/-- The character of an escape, after its backslash. -/
def escape? : List Char → Option (Char × List Char)
  | 'b' :: rest => some ('\x08', rest)
  | 't' :: rest => some ('\t', rest)
  | 'n' :: rest => some ('\n', rest)
  | 'f' :: rest => some ('\x0c', rest)
  | 'r' :: rest => some ('\r', rest)
  | '"' :: rest => some ('"', rest)
  | '\\' :: rest => some ('\\', rest)
  | 'u' :: rest => codePoint 4 rest
  | 'U' :: rest => codePoint 8 rest
  | _ => none

/-- The rest of a string of one line after its opening quote.  `text` holds the characters so far,
last first; each round takes at least one character of the input. -/
def lineTail (quote : Char) (escapes : Bool) : Nat → List Char → List Char → Option (String × List Char)
  | 0, _, _ => none
  | _ + 1, [], _ => none
  | fuel + 1, c :: rest, text =>
    if c == quote then some (String.ofList text.reverse, rest)
    else if escapes && c == '\\' then
      match escape? rest with
      | some (e, rest) => lineTail quote escapes fuel rest (e :: text)
      | none => none
    else if isPlain c then lineTail quote escapes fuel rest (c :: text)
    else none

/-- The rest after a line end that a backslash hides, and all blanks and line ends that follow. -/
def continued? (cs : List Char) : Option (List Char) := (newline? (skip cs)).map skipLines

/-- The rest of a string of several lines after its opening quotes.  Up to two quotes in a row belong
to the text; of a longer run the last three close the string, and at most two stand before them. -/
def linesTail (quote : Char) (escapes : Bool) :
    Nat → List Char → List Char → Option (String × List Char)
  | 0, _, _ => none
  | _ + 1, [], _ => none
  | fuel + 1, c :: rest, text =>
    if c == quote then
      let run := ((c :: rest).takeWhile (· == quote)).length
      if run < 3 then
        linesTail quote escapes fuel ((c :: rest).drop run) (List.replicate run quote ++ text)
      else
        let inside := min (run - 3) 2
        some (String.ofList (List.replicate inside quote ++ text).reverse,
          (c :: rest).drop (inside + 3))
    else if escapes && c == '\\' then
      match continued? rest with
      | some rest => linesTail quote escapes fuel rest text
      | none =>
        match escape? rest with
        | some (e, rest) => linesTail quote escapes fuel rest (e :: text)
        | none => none
    else
      match newline? (c :: rest) with
      | some rest => linesTail quote escapes fuel rest ('\n' :: text)
      | none => if isPlain c then linesTail quote escapes fuel rest (c :: text) else none

/-- A string of one line. -/
def readLine : List Char → Option (String × List Char)
  | '"' :: rest => lineTail '"' true (rest.length + 1) rest []
  | '\'' :: rest => lineTail '\'' false (rest.length + 1) rest []
  | _ => none

/-- A string of several lines after its opening quotes; a line end right after them is passed
over. -/
def readLines (quote : Char) (escapes : Bool) (cs : List Char) : Option (String × List Char) :=
  let cs := (newline? cs).getD cs
  linesTail quote escapes (cs.length + 1) cs []

/-- A string of any kind. -/
def read : List Char → Option (String × List Char)
  | '"' :: '"' :: '"' :: rest => readLines '"' true rest
  | '\'' :: '\'' :: '\'' :: rest => readLines '\'' false rest
  | cs => readLine cs

/-! ## Writing -/

/-- The longest run of a character. -/
def longestRun (c : Char) (cs : List Char) : Nat :=
  (cs.foldl (fun (best, run) d => if d == c then (max best (run + 1), run + 1) else (best, 0))
    (0, 0)).1

/-- Whether a text holds a control character other than tab and line end. -/
def hasControl (cs : List Char) : Bool := cs.any fun c => !isPlain c && c != '\n'

/-- The escape of a control character, a quote or a backslash. -/
def escaped (c : Char) : List Char :=
  match c with
  | '\x08' => ['\\', 'b']
  | '\t' => ['\\', 't']
  | '\n' => ['\\', 'n']
  | '\x0c' => ['\\', 'f']
  | '\r' => ['\\', 'r']
  | '"' => ['\\', '"']
  | '\\' => ['\\', '\\']
  | _ => ['\\', 'u'] ++ (Text.hexDigits 4 c.toNat).map Char.toUpper

/-- Whether a character has to be escaped between double quotes whatever surrounds it. -/
def needsEscape (c : Char) : Bool := c == '\\' || c == '\t' || (!isPlain c && c != '\n')

/-- A text between double quotes on one line. -/
def lineBody (cs : List Char) : List Char :=
  cs.flatMap fun c => if needsEscape c || c == '\n' || c == '"' then escaped c else [c]

/-- A text between double quotes on several lines; every third quote in a row is escaped.  `run`
counts the quotes since the last character that is none. -/
def linesBody : (run : Nat) → List Char → List Char
  | _, [] => []
  | run, c :: rest =>
    if c == '"' then
      if run = 2 then escaped c ++ linesBody 0 rest else c :: linesBody (run + 1) rest
    else if needsEscape c then escaped c ++ linesBody 0 rest
    else c :: linesBody 0 rest

/-- The plainest quoting of a text: what needs no escape is preferred, then one line over several,
then double quotes over single ones.  A text that has line ends starts on a line of its own. -/
def quote (cs : List Char) : List Char :=
  let control := hasControl cs
  let backslash := cs.contains '\\'
  let lines := cs.contains '\n'
  let singles := longestRun '\'' cs
  let doubles := longestRun '"' cs
  let line := ['"'] ++ lineBody cs ++ ['"']
  let opening := if lines then ['\n'] else []
  let several := ['"', '"', '"'] ++ opening ++ linesBody 0 cs ++ ['"', '"', '"']
  if !control && !backslash && doubles = 0 && !lines then line
  else if !control && singles = 0 && !lines then ['\''] ++ cs ++ ['\'']
  else if !control && !backslash && doubles ≤ 2 then several
  else if !control && singles ≤ 2 then ['\'', '\'', '\''] ++ opening ++ cs ++ ['\'', '\'', '\'']
  else if lines then several
  else line

/-- A text in quotes. -/
def write (s : String) : String := String.ofList (quote s.toList)

end Quoting

end Historian.Toml
