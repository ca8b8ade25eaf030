/-!
# Logging

What is logged, and the level at which log lines are kept: a level given from outside wins over the
configured one.
-/

set_option autoImplicit false

namespace Historian

/-- What is logged; structured lines are JSON. -/
structure LogSettings where
  level : String
  structured : Bool
  deriving DecidableEq

/-- The settings used unless others are given. -/
def LogSettings.default : LogSettings := ⟨"info", false⟩

namespace LogFilter

/-- Levels by number, from silent to verbose. -/
def levels : List String := ["off", "error", "warn", "info", "debug", "trace"]

/-- A level's own spelling: levels are read without regard to case, or by number, and no text at
all keeps errors. -/
def normalize (text : String) : String :=
  if text.isEmpty then "error"
  else
    let lower := String.ofList (text.toList.map Char.toLower)
    if levels.contains lower then lower
    else
      match text.toList with
      | [c] => if '0' ≤ c ∧ c ≤ '5' then levels.getD (c.toNat - '0'.toNat) text else text
      | _ => text

/-- The level in force. -/
def inForce (configured : String) (outside : Option String) : String :=
  normalize (outside.getD configured)

end LogFilter

end Historian
