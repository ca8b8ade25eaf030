/-!
# Quoted texts

A text between double quotes, as it is shown to a reader: quotes and backslashes are escaped, and so
are the control characters of ASCII, by their numbers in hexadecimal digits.  These are written in
lower case and read in either.
-/

set_option autoImplicit false

namespace Historian.Text

/-! ## Hexadecimal digits -/

/-- The value of a hexadecimal digit. -/
def hexValue? (c : Char) : Option Nat :=
  if c.isDigit then some (c.toNat - '0'.toNat)
  else if 'a' ≤ c ∧ c ≤ 'f' then some (c.toNat - 'a'.toNat + 10)
  else if 'A' ≤ c ∧ c ≤ 'F' then some (c.toNat - 'A'.toNat + 10)
  else none

/-- The digit of a number below sixteen. -/
def hexDigit (n : Nat) : Char := "0123456789abcdef".toList.getD n '0'

/-- The last `width` digits of a number. -/
def hexDigits : (width : Nat) → (n : Nat) → List Char
  | 0, _ => []
  | width + 1, n => hexDigits width (n / 16) ++ [hexDigit (n % 16)]

/-- The number that digits spell. -/
def hexNumber (cs : List Char) : Nat := cs.foldl (fun n c => n * 16 + (hexValue? c).getD 0) 0

example : hexDigits 4 0x1f = ['0', '0', '1', 'f'] := by decide
example : hexNumber ['0', '1', 'F'] = 0x1f := by decide

/-! ## Quotes -/

/-- A character inside quotes. -/
def quoteChar (c : Char) : List Char :=
  match c with
  | '"' => ['\\', '"']
  | '\\' => ['\\', '\\']
  | '\n' => ['\\', 'n']
  | '\r' => ['\\', 'r']
  | '\t' => ['\\', 't']
  | '\x00' => ['\\', '0']
  | _ =>
    if c.toNat < 32 || c.toNat == 127 then
      ['\\', 'u', '\x7b'] ++ hexDigits (if c.toNat < 16 then 1 else 2) c.toNat ++ ['\x7d']
    else [c]

/-- A text in quotes. -/
def quoted (s : String) : String := "\"" ++ String.ofList (s.toList.flatMap quoteChar) ++ "\""

/-- Texts in quotes, in brackets and parted by commas. -/
def quotedList (texts : List String) : String := "[" ++ String.intercalate ", " (texts.map quoted) ++ "]"

end Historian.Text
