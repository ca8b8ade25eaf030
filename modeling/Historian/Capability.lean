/-!
# Optional operations of a backend

A backend must scan and insert.  Everything else is a `Capability`, and a backend declares which of
them it offers.
-/

set_option autoImplicit false

namespace Historian

/-- An operation that a backend may lack. -/
inductive Capability
  | delete
  | deleteAllBefore
  | deleteAll
  | deleteOrphaned
  | retentionPolicy
  | topSeries
  deriving DecidableEq

namespace Capability

/-- Every capability. -/
def all : List Capability :=
  [delete, deleteAllBefore, deleteAll, deleteOrphaned, retentionPolicy, topSeries]

/-- The name shown to a user. -/
def name : Capability → String
  | delete => "delete"
  | deleteAllBefore => "delete-all-before"
  | deleteAll => "delete-all"
  | deleteOrphaned => "delete-orphaned"
  | retentionPolicy => "retention-policy"
  | topSeries => "top-series"

/-- The capability of a shown name. -/
def ofName? (text : String) : Option Capability := all.find? fun c => c.name == text

theorem mem_all (c : Capability) : c ∈ all := by cases c <;> decide

end Capability

/-- The set of capabilities that a backend declares. -/
structure Capabilities where
  supports : Capability → Bool

namespace Capabilities

/-- No optional operation. -/
def none : Capabilities := ⟨fun _ => false⟩

/-- Every optional operation. -/
def all : Capabilities := ⟨fun _ => true⟩

/-- The set with `c`. -/
def insert (s : Capabilities) (c : Capability) : Capabilities := ⟨fun d => d == c || s.supports d⟩

/-- The set without `c`. -/
def erase (s : Capabilities) (c : Capability) : Capabilities := ⟨fun d => d != c && s.supports d⟩

/-- The set of the listed capabilities. -/
def ofList (cs : List Capability) : Capabilities := ⟨fun c => cs.contains c⟩

/-- The declared capabilities in their fixed order. -/
def toList (s : Capabilities) : List Capability := Capability.all.filter s.supports

instance : BEq Capabilities := ⟨fun s t => Capability.all.all fun c => s.supports c == t.supports c⟩

theorem beq_iff_eq {s t : Capabilities} : (s == t) = true ↔ s = t := by
  constructor
  · intro h
    have h' : ∀ c ∈ Capability.all, (s.supports c == t.supports c) = true := List.all_eq_true.1 h
    cases s
    cases t
    exact congrArg mk (funext fun c => by simpa using h' c (Capability.mem_all c))
  · rintro rfl
    exact List.all_eq_true.2 fun c _ => by simp

/-- A set is the set of what it lists. -/
theorem ofList_toList (s : Capabilities) : ofList s.toList = s := by
  cases s with
  | mk f =>
    refine congrArg mk (funext fun c => ?_)
    have : c ∈ Capability.all := Capability.mem_all c
    cases h : f c <;> simp [toList, this, h]

end Capabilities

end Historian
