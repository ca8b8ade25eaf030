import Historian.Queue.Room

/-!
# Settings of queued writing

`WriterSettings.problem?` names the first setting that no pool can work with; `WriterSettings.Valid`
says what is left when there is none, and a pool carries it with its settings.
-/

set_option autoImplicit false

namespace Historian

/-- How queued values are written: by so many workers, each of which has the series of its own
remainder, in batches of `maxBatch` values at most that wait `maxDelay` milliseconds at most to
fill.  `capacity` is the most values queued or being written. -/
structure WriterSettings where
  workers : Nat
  maxBatch : Nat
  maxDelay : Nat
  capacity : Nat
  overflow : Overflow
  deriving DecidableEq

namespace WriterSettings

/-- The settings used unless others are given. -/
def default : WriterSettings := ⟨4, 1000, 100, 100000, .block⟩

/-- The most workers. -/
def maxWorkers : Nat := 64

/-- The largest capacity. -/
def maxCapacity : Nat := 100000000

/-- A setting that no pool can work with. -/
inductive Problem
  | noWorkers
  | tooManyWorkers (n : Nat)
  | noBatch
  | noCapacity
  | tooMuchCapacity (n : Nat)
  deriving DecidableEq

def Problem.message : Problem → String
  | noWorkers => "num_workers must be > 0"
  | tooManyWorkers n =>
    "num_workers " ++ toString n ++ " exceeds maximum allowed " ++ toString maxWorkers
  | noBatch => "max_batch_size must be > 0"
  | noCapacity => "queue_capacity must be > 0"
  | tooMuchCapacity n =>
    "queue_capacity " ++ toString n ++ " exceeds maximum allowed " ++ toString maxCapacity

/-- The first problem with the settings, if there is one. -/
def problem? (s : WriterSettings) : Option Problem :=
  if s.workers = 0 then some .noWorkers
  else if maxWorkers < s.workers then some (.tooManyWorkers s.workers)
  else if s.maxBatch = 0 then some .noBatch
  else if s.capacity = 0 then some .noCapacity
  else if maxCapacity < s.capacity then some (.tooMuchCapacity s.capacity)
  else none

/-- Settings that a pool can work with. -/
structure Valid (s : WriterSettings) : Prop where
  workers_pos : 0 < s.workers
  workers_le : s.workers ≤ maxWorkers
  maxBatch_pos : 0 < s.maxBatch
  capacity_pos : 0 < s.capacity
  capacity_le : s.capacity ≤ maxCapacity

theorem problem?_eq_none_iff {s : WriterSettings} : s.problem? = none ↔ s.Valid := by
  constructor
  · intro h
    unfold problem? at h
    split at h
    · simp at h
    split at h
    · simp at h
    split at h
    · simp at h
    split at h
    · simp at h
    split at h
    · simp at h
    exact ⟨by omega, by omega, by omega, by omega, by omega⟩
  · rintro ⟨h1, h2, h3, h4, h5⟩
    unfold problem?
    rw [if_neg (by omega), if_neg (by omega), if_neg (by omega), if_neg (by omega),
      if_neg (by omega)]

end WriterSettings

end Historian
