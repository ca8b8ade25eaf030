import Mathlib.Algebra.Order.Floor.Div
import Historian.Database.Changes
import Historian.Proofs.Store.Writes

/-!
# Saving in batches

A list of samples is saved in batches of one size, the last of which may be smaller.  Any of the
batches may fail, and then it stores nothing and none is issued after it.

* `chunksOf` — how many pieces a list is cut into, and that the first of them are its first items.
* `Memory.withBatchFaults` — a store in memory that refuses some batches by their number.
* `Database.saveBatches_stored`, `Database.saveBatches_refused` — batches one after the other, up to
  the first that fails.
* `Database.saveBatch_eq_saves` — what is stored is what saving the samples one by one stores, or a
  first part of it.
-/

set_option autoImplicit false

namespace Historian

/-! ## Pieces of a list -/

section

variable {α : Type}

theorem chunksOf_nil (n : Nat) : chunksOf n ([] : List α) = [] := by
  unfold chunksOf
  rw [dif_pos (.inl rfl)]

theorem chunksOf_eq_cons {n : Nat} (hn : 0 < n) {xs : List α} (hxs : xs ≠ []) :
    chunksOf n xs = xs.take n :: chunksOf n (xs.drop n) := by
  rw [chunksOf, dif_neg]
  rintro (h | h)
  · exact hxs h
  · omega

/-- One full piece less. -/
theorem ceilDiv_eq_succ {n x : Nat} (hn : 0 < n) (hx : 0 < x) :
    x ⌈/⌉ n = (x - n) ⌈/⌉ n + 1 := by
  rw [Nat.ceilDiv_eq_add_pred_div, Nat.ceilDiv_eq_add_pred_div]
  by_cases hle : x ≤ n
  · rw [show x - n + n - 1 = n - 1 by omega, show x + n - 1 = x - 1 + n by omega,
      Nat.add_div_right _ hn, Nat.div_eq_of_lt (by omega), Nat.div_eq_of_lt (by omega)]
  · rw [show x + n - 1 = x - n + n - 1 + n by omega, Nat.add_div_right _ hn]

/-- All pieces but the last are full. -/
theorem length_chunksOf {n : Nat} (hn : 0 < n) (xs : List α) :
    (chunksOf n xs).length = xs.length ⌈/⌉ n := by
  by_cases hxs : xs = []
  · subst hxs
    rw [chunksOf_nil]
    exact (zero_ceilDiv n).symm
  · have hpos : 0 < xs.length := List.length_pos_iff.2 hxs
    rw [chunksOf_eq_cons hn hxs, List.length_cons, length_chunksOf hn (xs.drop n), List.length_drop,
      ceilDiv_eq_succ hn hpos]
termination_by xs.length
decreasing_by
  rw [List.length_drop]
  omega

/-- The first pieces hold the first items. -/
theorem flatten_take_chunksOf {n : Nat} (hn : 0 < n) (k : Nat) (xs : List α) :
    ((chunksOf n xs).take k).flatten = xs.take (k * n) := by
  induction k generalizing xs with
  | zero => simp
  | succ k ih =>
    by_cases hxs : xs = []
    · subst hxs
      simp [chunksOf_nil]
    · rw [chunksOf_eq_cons hn hxs, List.take_succ_cons, List.flatten_cons, ih, Nat.succ_mul,
        Nat.add_comm, List.take_add]

theorem flatten_chunksOf {n : Nat} (hn : 0 < n) (xs : List α) : (chunksOf n xs).flatten = xs := by
  have hpieces : (chunksOf n xs).length ≤ xs.length := by
    rw [length_chunksOf hn, ceilDiv_le_iff_le_mul hn]
    exact Nat.le_mul_of_pos_left _ hn
  have hall := flatten_take_chunksOf hn xs.length xs
  rwa [List.take_of_length_le hpieces, List.take_of_length_le (Nat.le_mul_of_pos_right _ hn)] at hall

end

/-! ## Batches that fail -/

namespace Memory

/-- The failures of batches, by the number of batches before them. -/
abbrev BatchFaults := Nat → Option BackendFailure

/-- The store in memory, except that some batches fail as told.  They store nothing. -/
def withBatchFaults (faults : BatchFaults) : Backend Memory :=
  { backend with
    insertBatch := fun batch m =>
      match faults m.batches with
      | some e => (.error e, { m with batches := m.batches + 1 })
      | none => insertBatch batch m }

/-- The failure of a batch that is issued once `k` others have been stored. -/
def batchFault (faults : BatchFaults) (m : Memory) (k : Nat) : Option BackendFailure :=
  match faults (m.batches + k) with
  | some e => some e
  | none => if m.failingWrites = 0 then none else some (.unavailable "injected batch failure")

/-- The store once it has taken in `n` batches that hold `batch` together. -/
def taking (m : Memory) (n : Nat) (batch : List (SeriesId × Sample)) : Memory :=
  { m with archive := m.archive.putAll batch, batches := m.batches + n }

variable {faults : BatchFaults} {m : Memory}

/-- Only the number of batches before it tells whether a batch fails. -/
theorem batchFault_taking (n : Nat) (batch : List (SeriesId × Sample)) (k : Nat) :
    (m.taking n batch).batchFault faults k = m.batchFault faults (n + k) := by
  unfold batchFault taking
  rw [Nat.add_assoc]

theorem taking_taking (n n' : Nat) (batch batch' : List (SeriesId × Sample)) :
    (m.taking n batch).taking n' batch' = m.taking (n + n') (batch ++ batch') := by
  unfold taking
  rw [Archive.putAll_append, Nat.add_assoc]

theorem insertBatch_stored (h : m.batchFault faults 0 = none) (batch : List (SeriesId × Sample)) :
    (withBatchFaults faults).insertBatch batch m = (.ok (), m.taking 1 batch) := by
  unfold batchFault at h
  split at h
  · cases h
  · next hfault =>
    split at h
    · next hwrites =>
      simp only [withBatchFaults, show faults m.batches = none from hfault, insertBatch]
      exact if_pos hwrites
    · cases h

theorem insertBatch_refused {e : BackendFailure} (h : m.batchFault faults 0 = some e)
    (batch : List (SeriesId × Sample)) :
    ∃ m', (withBatchFaults faults).insertBatch batch m = (.error e, m') ∧
      m'.archive = m.archive ∧ m'.batches = m.batches + 1 := by
  unfold batchFault at h
  split at h
  · next fault hfault =>
    obtain rfl := Option.some.inj h
    refine ⟨{ m with batches := m.batches + 1 }, ?_, rfl, rfl⟩
    simp only [withBatchFaults, show faults m.batches = some fault from hfault]
  · next hfault =>
    split at h
    · cases h
    · next hwrites =>
      obtain rfl := Option.some.inj h
      refine ⟨{ m with batches := m.batches + 1, failingWrites := m.failingWrites - 1 }, ?_, rfl, rfl⟩
      simp only [withBatchFaults, show faults m.batches = none from hfault, insertBatch]
      exact if_neg hwrites

end Memory

namespace Database

variable {db : Database Memory} {faults : Memory.BatchFaults}

/-! ## One batch after the other -/

/-- Batches of which none fails are stored one after the other. -/
theorem saveBatches_stored (hdb : db.backend = Memory.withBatchFaults faults)
    (batches : List (List (SeriesId × Sample))) :
    ∀ (saved : Nat) {m : Memory}, (∀ k < batches.length, m.batchFault faults k = none) →
      db.saveBatches batches saved m =
        (.ok (saved + batches.flatten.length), m.taking batches.length batches.flatten) := by
  induction batches with
  | nil => exact fun _ _ _ => rfl
  | cons batch rest ih =>
    intro saved m hstored
    have hfirst := Memory.insertBatch_stored (hstored 0 (Nat.zero_lt_succ _)) batch
    have hrest : ∀ k < rest.length, (m.taking 1 batch).batchFault faults k = none := by
      intro k hk
      rw [Memory.batchFault_taking]
      exact hstored (1 + k) (by rw [List.length_cons]; omega)
    rw [← hdb] at hfirst
    simp only [saveBatches, hfirst]
    rw [ih _ hrest, Memory.taking_taking, List.flatten_cons, List.length_append, List.length_cons,
      Nat.add_assoc, Nat.add_comm 1]

/-- After the first batch that fails none is issued. -/
theorem saveBatches_refused (hdb : db.backend = Memory.withBatchFaults faults) (k : Nat)
    {e : BackendFailure} :
    ∀ {batches : List (List (SeriesId × Sample))} (saved : Nat) {m : Memory}, k < batches.length →
      (∀ j < k, m.batchFault faults j = none) → m.batchFault faults k = some e →
      ∃ m', db.saveBatches batches saved m = (.error (.ofBackend e), m') ∧
        m'.archive = m.archive.putAll (batches.take k).flatten ∧ m'.batches = m.batches + (k + 1) := by
  induction k with
  | zero =>
    intro batches saved m hk _ hfault
    obtain ⟨batch, rest, rfl⟩ := List.exists_cons_of_ne_nil (List.ne_nil_of_length_pos hk)
    obtain ⟨m', hfirst, harchive, hbatches⟩ := Memory.insertBatch_refused hfault batch
    rw [← hdb] at hfirst
    exact ⟨m', by simp only [saveBatches, hfirst], harchive, hbatches⟩
  | succ k ih =>
    intro batches saved m hk hstored hfault
    obtain ⟨batch, rest, rfl⟩ := List.exists_cons_of_ne_nil (List.ne_nil_of_length_pos
      (Nat.lt_trans (Nat.zero_lt_succ k) hk))
    have hfirst := Memory.insertBatch_stored (hstored 0 (Nat.zero_lt_succ k)) batch
    rw [← hdb] at hfirst
    have hlater : k < rest.length := Nat.lt_of_succ_lt_succ hk
    obtain ⟨m', hrest, harchive, hbatches⟩ := ih (saved + batch.length)
      (m := m.taking 1 batch) hlater
      (fun j hj => by
        rw [Memory.batchFault_taking]
        exact hstored (1 + j) (by omega))
      (by rw [Memory.batchFault_taking, Nat.add_comm]; exact hfault)
    refine ⟨m', ?_, ?_, ?_⟩
    · simp only [saveBatches, hfirst]
      exact hrest
    · rw [harchive, List.take_succ_cons, List.flatten_cons, Archive.putAll_append]
      rfl
    · rw [hbatches]
      show m.batches + 1 + (k + 1) = _
      omega

/-! ## One sample after the other -/

/-- Saves samples one by one, and gives the answers. -/
def saveEach (db : Database Memory) :
    List (Point × Sample) → StateM Memory (List (Except Failure Sample))
  | [] => fun m => ([], m)
  | (p, v) :: rest => fun m =>
    let (r, m) := db.save p v m
    let (later, m) := db.saveEach rest m
    (r :: later, m)

/-- The samples with the series they belong to. -/
def entries (rows : List (Point × Sample)) : List (SeriesId × Sample) :=
  rows.map fun row => (row.1.series, row.2)

theorem save_stored (hdb : db.backend = Memory.withBatchFaults faults) (p : Point) (v : Sample)
    {m : Memory} (hwrites : m.failingWrites = 0) :
    db.save p v m = (.ok v, m.taking 0 [(p.series, v)]) := by
  have hinsert : db.backend.insert p.series v m = (.ok v, m.taking 0 [(p.series, v)]) := by
    rw [hdb]
    exact if_pos hwrites
  unfold save call
  rw [hinsert]
  rfl

/-- Where no write fails, all samples are saved. -/
theorem saveEach_stored (hdb : db.backend = Memory.withBatchFaults faults)
    (rows : List (Point × Sample)) :
    ∀ {m : Memory}, m.failingWrites = 0 →
      db.saveEach rows m = (rows.map fun row => .ok row.2, m.taking 0 (entries rows)) := by
  induction rows with
  | nil => exact fun _ => rfl
  | cons row rest ih =>
    intro m hwrites
    obtain ⟨p, v⟩ := row
    have hrest := ih (m := m.taking 0 [(p.series, v)]) hwrites
    rw [Memory.taking_taking] at hrest
    simp only [saveEach, save_stored hdb p v hwrites, hrest]
    rfl

/-- If no batch fails, saving in batches counts the samples, issues as many batches as their size
takes, and leaves what saving the samples one by one leaves.  If one fails, its failure is the
answer, the samples of the batches before it are stored and no others, and none is issued after it. -/
theorem saveBatch_eq_saves (hdb : db.backend = Memory.withBatchFaults faults) (m : Memory)
    (rows : List (Point × Sample)) {chunk : Nat} (hchunk : 0 < chunk) :
    let saved := db.saveBatch (entries rows) chunk m
    let singly (rows : List (Point × Sample)) := db.saveEach rows { m with failingWrites := 0 }
    ((∀ k < rows.length ⌈/⌉ chunk, m.batchFault faults k = none) →
      saved.1 = .ok rows.length ∧ saved.2.batches = m.batches + rows.length ⌈/⌉ chunk ∧
        (singly rows).1 = rows.map (fun row => .ok row.2) ∧
        saved.2.archive = (singly rows).2.archive) ∧
    ∀ k < rows.length ⌈/⌉ chunk, ∀ e, (∀ j < k, m.batchFault faults j = none) →
      m.batchFault faults k = some e →
      saved.1 = .error (.ofBackend e) ∧ saved.2.batches = m.batches + (k + 1) ∧
        (singly (rows.take (k * chunk))).1 = (rows.take (k * chunk)).map (fun row => .ok row.2) ∧
        saved.2.archive = (singly (rows.take (k * chunk))).2.archive := by
  intro saved singly
  have hlength : (entries rows).length = rows.length := List.length_map _
  have hpieces : (chunksOf chunk (entries rows)).length = rows.length ⌈/⌉ chunk := by
    rw [length_chunksOf hchunk, hlength]
  have hsaved : saved = db.saveBatches (chunksOf chunk (entries rows)) 0 m := by
    show db.saveBatch (entries rows) chunk m = _
    rw [saveBatch, if_neg (by omega)]
  have hsingly : ∀ rows : List (Point × Sample),
      (singly rows).1 = rows.map (fun row => .ok row.2) ∧
        (singly rows).2.archive = m.archive.putAll (entries rows) := by
    intro rows
    have hall := saveEach_stored hdb rows (m := { m with failingWrites := 0 }) rfl
    exact ⟨congrArg Prod.fst hall, congrArg (fun r => r.2.archive) hall⟩
  constructor
  · intro hstored
    rw [← hpieces] at hstored
    rw [hsaved, saveBatches_stored hdb _ 0 hstored, flatten_chunksOf hchunk, hlength, Nat.zero_add,
      (hsingly rows).2]
    exact ⟨rfl, congrArg _ hpieces, (hsingly rows).1, rfl⟩
  · intro k hk e hstored hfault
    rw [← hpieces] at hk
    obtain ⟨m', hrun, harchive, hbatches⟩ := saveBatches_refused hdb k 0 hk hstored hfault
    rw [flatten_take_chunksOf hchunk, entries, ← List.map_take] at harchive
    rw [hsaved, hrun]
    exact ⟨rfl, hbatches, (hsingly _).1, harchive.trans (hsingly _).2.symm⟩

/-- A series is written twice at one time, in the first batch and in the last, which is not issued
because the second one fails. -/
theorem saveBatch_eq_saves_second_fails :
    let faults : Memory.BatchFaults := fun n => if n = 1 then some (.io "disk full") else none
    let db : Database Memory := ⟨Memory.withBatchFaults faults, .all, 1000, 10, by decide, by decide⟩
    let sample (t : Timestamp) (on : Bool) : Sample := ⟨t, .flag on, none⟩
    let rows : List (Point × Sample) := [(⟨7, 1⟩, sample 5 true), (⟨8, 2⟩, sample 5 true),
      (⟨7, 1⟩, sample 6 true), (⟨8, 2⟩, sample 6 true), (⟨7, 1⟩, sample 5 false)]
    let saved := db.saveBatch (entries rows) 2 Memory.new
    saved.1 = .error (.storage (.io "disk full")) ∧ saved.2.batches = 2 ∧
      saved.2.archive = (db.saveEach (rows.take 2) Memory.new).2.archive ∧
      saved.2.archive.get? 1 5 = some ⟨.flag true, none⟩ ∧ saved.2.archive.count = 2 := by
  intro faults db sample rows saved
  have hchunk : 0 < 2 := Nat.zero_lt_succ 1
  obtain ⟨-, hrefused⟩ := saveBatch_eq_saves (show db.backend = _ from rfl) Memory.new rows hchunk
  obtain ⟨hanswer, hbatches, -, harchive⟩ :=
    hrefused 1 (by decide) (.io "disk full") (by decide) (by decide)
  refine ⟨hanswer, hbatches, harchive, ?_, ?_⟩
  · rw [harchive]
    decide +kernel
  · rw [harchive]
    decide +kernel

end Database

end Historian
