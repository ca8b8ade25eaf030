import Historian.Memory

/-!
# Changes to a store in memory

Whoever has the store at hand may change what it holds at any time.  A `Memory.Change` is one call
that does so, made through the backend like every other; a call that the store refuses changes
nothing that is held.

* `Memory.evolve` — the store after changes that come in rounds, one round after the other.
* `Change.apply_counted` — what reading counts is of no account to a change, so the same rounds leave
  the same contents whether or not somebody reads in between.
* `Change.apply_frame` — what no change touches.
-/

set_option autoImplicit false

namespace Historian.Memory

/-- A call that may change what the store holds. -/
inductive Change
  /-- Writes, also over what stands at the time. -/
  | insert (series : SeriesId) (v : Sample)
  | insertBatch (batch : List (SeriesId × Sample))
  | deleteWithin (series : SeriesId) (w : Window)
  | deleteAllBefore (t : Timestamp)
  | deleteAll
  | deleteOrphaned (live : List SeriesId)
  | setRetention (p : Period)
  | enforceRetention (now : Timestamp)

/-- The store after a call, answered as its backend answers it. -/
def Change.apply (m : Memory) : Change → Memory
  | insert series v => (backend.insert series v m).2
  | insertBatch batch => (backend.insertBatch batch m).2
  | deleteWithin series w => (backend.deleteWithin series w m).2
  | deleteAllBefore t => (backend.deleteAllBefore t m).2
  | deleteAll => (backend.deleteAll m).2
  | deleteOrphaned live => (backend.deleteOrphaned live m).2
  | setRetention p => (backend.setRetention p m).2
  | enforceRetention now => (backend.enforceRetention now m).2

/-- The store after one call and another. -/
def applyAll (m : Memory) (changes : List Change) : Memory := changes.foldl Change.apply m

/-- The store after round `n` of changes, the rounds being numbered from zero. -/
def evolve (changes : Nat → List Change) (m : Memory) : Nat → Memory
  | 0 => m.applyAll (changes 0)
  | n + 1 => (evolve changes m n).applyAll (changes (n + 1))

/-! ## What reading counts -/

/-- The store with other counters of what reading needs. -/
def counted (m : Memory) (scans openLeases : Nat) : Memory := { m with scans, openLeases }

theorem delete_counted (c : Capability) (change : Archive → Archive) (m : Memory)
    (scans leases : Nat) :
    (delete c change (m.counted scans leases)).2 = (delete c change m).2.counted scans leases := by
  unfold delete counted
  cases m.capabilities.require c <;> rfl

theorem Change.apply_counted (c : Change) (m : Memory) (scans leases : Nat) :
    c.apply (m.counted scans leases) = (c.apply m).counted scans leases := by
  cases c with
  | insert series v =>
    show (Memory.insert series v (m.counted scans leases)).2 =
      (Memory.insert series v m).2.counted scans leases
    unfold Memory.insert counted
    dsimp only
    split <;> rfl
  | insertBatch batch =>
    show (Memory.insertBatch batch (m.counted scans leases)).2 =
      (Memory.insertBatch batch m).2.counted scans leases
    unfold Memory.insertBatch counted
    dsimp only
    split <;> rfl
  | deleteWithin series w => exact delete_counted ..
  | deleteAllBefore t => exact delete_counted ..
  | deleteAll => exact delete_counted ..
  | deleteOrphaned live => exact delete_counted ..
  | setRetention p =>
    unfold Change.apply backend counted
    dsimp only
    cases m.capabilities.require .retentionPolicy <;> rfl
  | enforceRetention now => exact delete_counted ..

theorem applyAll_counted (changes : List Change) (m : Memory) (scans leases : Nat) :
    (m.counted scans leases).applyAll changes = (m.applyAll changes).counted scans leases := by
  unfold applyAll
  induction changes generalizing m with
  | nil => rfl
  | cons c rest ih => rw [List.foldl_cons, Change.apply_counted, ih, List.foldl_cons]

/-! ## What no change touches -/

/-- A deletion changes the contents alone. -/
theorem delete_frame (c : Capability) (change : Archive → Archive) (m : Memory) :
    (delete c change m).2 = { m with archive := (delete c change m).2.archive } := by
  unfold delete
  cases m.capabilities.require c <;> rfl

/-- Whatever a change does, it does to the contents, the retention period, and the counters of
batches and of writes that are going to fail. -/
theorem Change.apply_frame (c : Change) (m : Memory) :
    c.apply m = { m with
      archive := (c.apply m).archive
      retention := (c.apply m).retention
      batches := (c.apply m).batches
      failingWrites := (c.apply m).failingWrites } := by
  have hdelete : ∀ c change, (delete c change m).2 = { m with
      archive := (delete c change m).2.archive
      retention := (delete c change m).2.retention
      batches := (delete c change m).2.batches
      failingWrites := (delete c change m).2.failingWrites } := by
    intro c change
    rw [delete_frame]
  cases c with
  | insert series v =>
    simp only [Change.apply, backend, Memory.insert]
    split <;> rfl
  | insertBatch batch =>
    simp only [Change.apply, backend, Memory.insertBatch]
    split <;> rfl
  | deleteWithin series w => exact hdelete ..
  | deleteAllBefore t => exact hdelete ..
  | deleteAll => exact hdelete ..
  | deleteOrphaned live => exact hdelete ..
  | setRetention p =>
    simp only [Change.apply, backend]
    cases m.capabilities.require .retentionPolicy <;> rfl
  | enforceRetention now => exact hdelete ..

/-- No change makes scans fail. -/
theorem Change.apply_failingScans (c : Change) (m : Memory) :
    (c.apply m).failingScans = m.failingScans := by
  rw [Change.apply_frame]

theorem Change.apply_capabilities (c : Change) (m : Memory) :
    (c.apply m).capabilities = m.capabilities := by
  rw [Change.apply_frame]

theorem Change.apply_purgesPoints (c : Change) (m : Memory) :
    (c.apply m).purgesPoints = m.purgesPoints := by
  rw [Change.apply_frame]

/-- Only setting the retention period changes it. -/
theorem Change.apply_retention (c : Change) (m : Memory) (hc : ∀ p, c ≠ .setRetention p) :
    (c.apply m).retention = m.retention := by
  have hdelete : ∀ c change, (delete c change m).2.retention = m.retention := by
    intro c change
    rw [delete_frame]
  cases c with
  | insert series v =>
    simp only [Change.apply, backend, Memory.insert]
    split <;> rfl
  | insertBatch batch =>
    simp only [Change.apply, backend, Memory.insertBatch]
    split <;> rfl
  | deleteWithin series w => exact hdelete ..
  | deleteAllBefore t => exact hdelete ..
  | deleteAll => exact hdelete ..
  | deleteOrphaned live => exact hdelete ..
  | setRetention p => exact absurd rfl (hc p)
  | enforceRetention now => exact hdelete ..

theorem evolve_failingScans (changes : Nat → List Change) (m : Memory) (n : Nat) :
    (m.evolve changes n).failingScans = m.failingScans := by
  have hround : ∀ (round : List Change) (m : Memory),
      (m.applyAll round).failingScans = m.failingScans := by
    intro round
    unfold applyAll
    induction round with
    | nil => intro m; rfl
    | cons c rest ih => intro m; rw [List.foldl_cons, ih, Change.apply_failingScans]
  induction n with
  | zero => exact hround _ _
  | succ n ih => exact (hround _ _).trans ih

end Historian.Memory
