import Historian.Proofs.Database.Admission
import Historian.Setup

/-!
# Settings that can be used

Settings are looked at when they are read, and again when a database is set up with them.  Whatever
has passed the first look passes the second one, and reads and writes then find nothing wrong with it.

* `Settings.validate_eq_ok_iff` — what validation asks for.
* `Setup.build_of_usable` — what is set up with usable settings.
* `Database.one_le_limitedChunk`, `Database.one_le_combinedChunk` — the sizes of chunks have bounds,
  whatever the limit and the number of points; `Database.limitedWord_eq`, `Database.combinedWord_eq`:
  computing them in words of the machine never fails and comes to the same.
* `Setup.build_of_validate` — all of it for validated settings.
-/

set_option autoImplicit false

namespace Historian

variable {σ : Type}

/-! ## Validation -/

/-- What settings have to be like to be used. -/
structure Settings.Usable (settings : Settings) : Prop where
  chunkSize : ∀ n, settings.read.chunkSize = some n → 1 ≤ n ∧ n ≤ maxChunkSize
  minCombinedChunk : 1 ≤ settings.read.minCombinedChunk
  writer : ∀ w, settings.writer = some w → w.Valid
  interval : settings.purge.enabled = true → 1 ≤ settings.purge.intervalSeconds
  period : ∀ p, settings.purge.defaultPeriod = some p → p.count ≠ 0

theorem Settings.problem?_eq_none_iff {settings : Settings} :
    settings.problem? = none ↔ settings.Usable := by
  have hchunk : (settings.read.chunkSize.filter fun n => n = 0 ∨ maxChunkSize < n) = none ↔
      ∀ n, settings.read.chunkSize = some n → 1 ≤ n ∧ n ≤ maxChunkSize := by
    cases settings.read.chunkSize <;> simp [Option.filter, Nat.one_le_iff_ne_zero]
  have hwriter : settings.writer.bind WriterSettings.problem? = none ↔
      ∀ w, settings.writer = some w → w.Valid := by
    cases settings.writer <;> simp [WriterSettings.problem?_eq_none_iff]
  have hperiod : ¬ (settings.purge.defaultPeriod.any fun p => p.count == 0) = true ↔
      ∀ p, settings.purge.defaultPeriod = some p → p.count ≠ 0 := by
    cases settings.purge.defaultPeriod <;> simp
  constructor
  · intro h
    unfold problem? at h
    dsimp only at h
    split at h
    · cases h
    next hchunk' =>
      split at h
      · cases h
      next hcombined =>
        split at h
        · cases h
        next hwriter' =>
          split at h
          · cases h
          next hinterval =>
            split at h
            · cases h
            next hperiod' =>
              exact ⟨hchunk.1 hchunk', Nat.one_le_iff_ne_zero.2 hcombined, hwriter.1 hwriter',
                fun henabled => Nat.one_le_iff_ne_zero.2 fun hzero => hinterval ⟨henabled, hzero⟩,
                hperiod.1 hperiod'⟩
  · intro h
    have hinterval : ¬ (settings.purge.enabled = true ∧ settings.purge.intervalSeconds = 0) :=
      fun hbad => Nat.one_le_iff_ne_zero.1 (h.interval hbad.1) hbad.2
    unfold problem?
    dsimp only
    rw [hchunk.2 h.chunkSize]
    dsimp only
    rw [if_neg (Nat.one_le_iff_ne_zero.1 h.minCombinedChunk), hwriter.2 h.writer]
    dsimp only
    rw [if_neg hinterval, if_neg (hperiod.2 h.period)]

theorem Settings.validate_eq_ok_iff {settings : Settings} :
    settings.validate = .ok () ↔ settings.Usable := by
  rw [← problem?_eq_none_iff, validate]
  cases settings.problem? <;> simp

/-! ## Sizes of chunks -/

namespace Database

variable (db : Database σ)

theorem limitedChunk_bounds (limit : Option Nat) :
    1 ≤ db.limitedChunk limit ∧
      db.limitedChunk limit ≤ max db.chunkSize db.minCombinedChunk := by
  refine ⟨db.limitedChunk_pos limit, Nat.le_trans ?_ (Nat.le_max_left ..)⟩
  cases limit with
  | none => exact Nat.le_refl _
  | some l => exact Nat.min_le_right ..

theorem combinedChunk_bounds (limit : Option Nat) (points : Nat) :
    1 ≤ db.combinedChunk limit points ∧
      db.combinedChunk limit points ≤ max db.chunkSize db.minCombinedChunk := by
  refine ⟨db.combinedChunk_pos limit points, ?_⟩
  unfold combinedChunk
  split
  · split <;> omega
  · omega

end Database

/-! ## In words of the machine -/

/-- A number moved between two bounds; there is nothing between bounds that are the wrong way round. -/
def clampWord (x low high : UInt64) : Option UInt64 :=
  if low ≤ high then some (if x < low then low else if high < x then high else x) else none

/-- A quotient, if there is one. -/
def divideWord (x y : UInt64) : Option UInt64 := if y = 0 then none else some (x / y)

/-- The largest word. -/
def largestWord : UInt64 := .ofNat (twoTo 64 - 1)

/-- A sum, or the largest word where that does not hold it. -/
def addWord (x y : UInt64) : UInt64 := if x ≤ largestWord - y then x + y else largestWord

/-- The chunk size of a read that stops after `limit` values. -/
def limitedWord (chunk : UInt64) : Option UInt64 → Option UInt64
  | some l => clampWord l 1 chunk
  | none => some chunk

/-- The chunk size of a combined read over `points` series. -/
def combinedWord (chunk least : UInt64) (limit : Option UInt64) (points : UInt64) : Option UInt64 :=
  match limit with
  | some l =>
    if 0 < points then
      (divideWord l points).map fun share =>
        let size := if addWord share 1 < chunk then addWord share 1 else chunk
        if size < least then least else size
    else some chunk
  | none => some chunk

/-- One more, as far as words go. -/
theorem toNat_addWord_one (x : UInt64) : (addWord x 1).toNat = min (x.toNat + 1) (twoTo 64 - 1) := by
  have hx : x.toNat < twoTo 64 := x.toNat_lt
  have htwo : 2 ≤ twoTo 64 := by decide
  have hlargest : largestWord.toNat = twoTo 64 - 1 := rfl
  have hbefore : (largestWord - 1).toNat = twoTo 64 - 2 := rfl
  rw [addWord]
  split
  · next hfits =>
    rw [UInt64.le_iff_toNat_le, hbefore] at hfits
    have hsum : (x + 1).toNat = x.toNat + 1 := by
      rw [UInt64.toNat_add, UInt64.toNat_one]
      exact Nat.mod_eq_of_lt (show x.toNat + 1 < twoTo 64 by omega)
    omega
  · next hlong =>
    rw [UInt64.le_iff_toNat_le, hbefore] at hlong
    omega

namespace Database

variable (db : Database σ)

/-- The bounds of the size are the right way round, so there is a size. -/
theorem limitedWord_eq {chunk : UInt64} (hchunk : chunk.toNat = db.chunkSize)
    (limit : Option UInt64) :
    ∃ size, limitedWord chunk limit = some size ∧
      size.toNat = db.limitedChunk (limit.map UInt64.toNat) := by
  have hpos := db.chunkSize_pos
  cases limit with
  | none => exact ⟨chunk, rfl, hchunk⟩
  | some l =>
    have hbounds : (1 : UInt64) ≤ chunk := by
      rw [UInt64.le_iff_toNat_le, hchunk]
      exact hpos
    refine ⟨_, by rw [limitedWord, clampWord, if_pos hbounds], ?_⟩
    rw [Option.map_some, limitedChunk, ← hchunk]
    split
    · next hlow =>
      rw [UInt64.lt_iff_toNat_lt, UInt64.toNat_one] at hlow
      rw [UInt64.toNat_one]
      omega
    · next hlow =>
      rw [UInt64.lt_iff_toNat_lt, UInt64.toNat_one] at hlow
      split
      · next hhigh =>
        rw [UInt64.lt_iff_toNat_lt] at hhigh
        omega
      · next hhigh =>
        rw [UInt64.lt_iff_toNat_lt] at hhigh
        omega

/-- A share is only asked for where there are points, and one more of it does not go around. -/
theorem combinedWord_eq {chunk least : UInt64} (hchunk : chunk.toNat = db.chunkSize)
    (hleast : least.toNat = db.minCombinedChunk) (limit : Option UInt64) (points : UInt64) :
    ∃ size, combinedWord chunk least limit points = some size ∧
      size.toNat = db.combinedChunk (limit.map UInt64.toNat) points.toNat := by
  cases limit with
  | none => exact ⟨chunk, rfl, hchunk⟩
  | some l =>
    by_cases hpoints : points = 0
    · subst hpoints
      exact ⟨chunk, rfl, hchunk⟩
    · have hpos : 0 < points := UInt64.pos_iff_ne_zero.2 hpoints
      have hne : points.toNat ≠ 0 := fun h => hpoints (UInt64.toNat_inj.1 h)
      refine ⟨_, by rw [combinedWord, if_pos hpos, divideWord, if_neg hpoints, Option.map_some], ?_⟩
      have hshare := toNat_addWord_one (l / points)
      have hwide : chunk.toNat < twoTo 64 := chunk.toNat_lt
      rw [UInt64.toNat_div] at hshare
      rw [Option.map_some, combinedChunk, if_neg hne, ← hchunk, ← hleast]
      generalize addWord (l / points) 1 = share at hshare
      generalize l.toNat / points.toNat = n at hshare
      simp only [UInt64.lt_iff_toNat_lt]
      split <;> split <;> omega

end Database

/-! ## Setting up -/

namespace Setup

/-- A database that has been set up with some settings, and what it can do. -/
structure Works (settings : Settings) (b : Backend σ) (opened : σ) (tick now : Nat)
    (handle : Handle σ) : Prop where
  backend : handle.database.backend = b ∧ handle.database.capabilities = b.capabilities opened
  /-- The settings have the last word on the size of chunks. -/
  chunkSize : handle.database.chunkSize = settings.read.chunkSize.getD (b.chunkSize opened) ∧
    handle.database.minCombinedChunk = settings.read.minCombinedChunk
  /-- Values are queued just if there are settings for that, and then the pool is at rest. -/
  pool : (settings.writer = none → handle.pool = none) ∧
    ∀ w, settings.writer = some w → ∃ valid : w.Valid,
      handle.pool = some (.start w valid tick now)
  limited : ∀ limit : Option Nat, 1 ≤ handle.database.limitedChunk limit ∧
    handle.database.limitedChunk limit ≤
      max handle.database.chunkSize handle.database.minCombinedChunk
  combined : ∀ (limit : Option Nat) (points : Nat),
    1 ≤ handle.database.combinedChunk limit points ∧
      handle.database.combinedChunk limit points ≤
        max handle.database.chunkSize handle.database.minCombinedChunk
  /-- In words of the machine the sizes are the same, and no step to them fails. -/
  words : ∀ chunk least : UInt64, chunk.toNat = handle.database.chunkSize →
    least.toNat = handle.database.minCombinedChunk →
      ∀ (limit : Option UInt64) (points : UInt64),
        (∃ size, limitedWord chunk limit = some size ∧
          size.toNat = handle.database.limitedChunk (limit.map UInt64.toNat)) ∧
        ∃ size, combinedWord chunk least limit points = some size ∧
          size.toNat = handle.database.combinedChunk (limit.map UInt64.toNat) points.toNat
  /-- No cursor is refused for its chunk size, -/
  cursors : handle.database.InOrder
  /-- and no call whose own arguments are in order is refused for any argument. -/
  calls : ∀ (call : Call σ) (s : σ), ¬ call.arguments.IllFormed →
    ∀ cause, (call.run handle.database s).1.failure ≠ some (.invalidArgument cause)

theorem startPool_eq {w : WriterSettings} (valid : w.Valid) (tick now : Nat) :
    startPool w tick now = .ok (.start w valid tick now) := by
  unfold startPool
  split
  · next p hp => exact absurd (hp.symm.trans (WriterSettings.problem?_eq_none_iff.2 valid)) (by simp)
  · rfl

theorem new_eq {settings : Settings} (h : settings.Usable) {b : Backend σ} {opened : σ}
    (hchunk : 1 ≤ b.chunkSize opened) :
    ∃ db, Database.new b settings.read opened = .ok db ∧ db.backend = b ∧
      db.capabilities = b.capabilities opened ∧
      db.chunkSize = settings.read.chunkSize.getD (b.chunkSize opened) ∧
      db.minCombinedChunk = settings.read.minCombinedChunk := by
  have hpos : 0 < settings.read.chunkSize.getD (b.chunkSize opened) := by
    cases hsize : settings.read.chunkSize with
    | none => exact hchunk
    | some n => exact (h.chunkSize n hsize).1
  have hleast : 0 < settings.read.minCombinedChunk := h.minCombinedChunk
  exact ⟨_, by rw [Database.new, dif_pos hpos, dif_pos hleast], rfl, rfl, rfl, rfl⟩

/-- Usable settings set a database up that works. -/
theorem build_of_usable {settings : Settings} (h : settings.Usable) {b : Backend σ} {opened : σ}
    (hchunk : 1 ≤ b.chunkSize opened) {setup : Setup} (hruntime : setup.hasRuntime = true)
    (now : Nat) :
    ∃ handle, (setup.withSettings settings).build (some b) now opened = .ok handle ∧
      Works settings b opened setup.meterTick now handle := by
  obtain ⟨db, hnew, hbackend, hcapabilities, hsize, hleast⟩ := new_eq h hchunk
  have hworks {pool : Option Pool} (hpool : (settings.writer = none → pool = none) ∧
      ∀ w, settings.writer = some w → ∃ valid : w.Valid,
        pool = some (.start w valid setup.meterTick now)) :
      Works settings b opened setup.meterTick now ⟨db, pool⟩ :=
    { backend := ⟨hbackend, hcapabilities⟩
      chunkSize := ⟨hsize, hleast⟩
      pool := hpool
      limited := db.limitedChunk_bounds
      combined := db.combinedChunk_bounds
      words := fun _ _ hchunk hleast limit points =>
        ⟨db.limitedWord_eq hchunk limit, db.combinedWord_eq hchunk hleast limit points⟩
      cursors := db.inOrder
      calls := fun call s hwell cause hfailure =>
        hwell ((Call.decided db call s).invalid.1 ⟨cause, hfailure⟩) }
  have hread : (setup.withSettings settings).read = settings.read := rfl
  cases hwriter : settings.writer with
  | none =>
    refine ⟨⟨db, none⟩, ?_, hworks ⟨fun _ => rfl, fun w hw => ?_⟩⟩
    · have hnone : (setup.withSettings settings).writer = none := hwriter
      simp only [build, hread, hnew, hnone]
      rfl
    · rw [hwriter] at hw
      cases hw
  | some w =>
    have valid := h.writer w hwriter
    refine ⟨⟨db, some (.start w valid setup.meterTick now)⟩, ?_,
      hworks ⟨fun hnone => ?_, fun w' hw => ?_⟩⟩
    · have hsome : (setup.withSettings settings).writer = some w := hwriter
      have hruns : (setup.withSettings settings).hasRuntime = true := hruntime
      have hpool := startPool_eq valid (setup.withSettings settings).meterTick now
      simp only [build, hread, hnew, hsome, hruns, hpool]
      rfl
    · rw [hwriter] at hnone
      cases hnone
    · rw [hwriter] at hw
      obtain rfl := Option.some.inj hw
      exact ⟨valid, rfl⟩

/-- Settings that validation accepts set up a database that works, over every backend that asks for
chunks of some size. -/
theorem build_of_validate (settings : Settings) (hvalid : settings.validate = .ok ()) (b : Backend σ)
    (opened : σ) (hchunk : 1 ≤ b.chunkSize opened) (setup : Setup)
    (hruntime : setup.hasRuntime = true) (now : Nat) :
    ∃ handle, (setup.withSettings settings).build (some b) now opened = .ok handle ∧
      Works settings b opened setup.meterTick now handle :=
  build_of_usable (Settings.validate_eq_ok_iff.1 hvalid) hchunk hruntime now

/-- The largest chunks, the smallest least chunk of a combined read, and as many workers as there may
be, for a store that asks for single values.  With a limit that fills its word the share of one point is
all of it, and one more is still the same word; with no points there is no share. -/
theorem build_of_validate_largest :
    let settings : Settings :=
      { Settings.default with
        read := ⟨some Settings.maxChunkSize, 1⟩
        writer := some ⟨WriterSettings.maxWorkers, 1, 0, WriterSettings.maxCapacity, .reject⟩ }
    let m : Memory := { Memory.new with chunkSize := 1 }
    settings.validate = .ok () ∧ 1 ≤ Memory.backend.chunkSize m ∧
      ∃ handle, (Setup.default.withSettings settings).build (some Memory.backend) 0 m = .ok handle ∧
        handle.database.chunkSize = 1000000 ∧ handle.pool.isSome ∧
        (∃ size, combinedWord 1000000 1 (some largestWord) 1 = some size ∧
          size.toNat = handle.database.combinedChunk (some (twoTo 64 - 1)) 1) ∧
        (∃ size, combinedWord 1000000 1 (some largestWord) 0 = some size ∧
          size.toNat = handle.database.combinedChunk (some (twoTo 64 - 1)) 0) ∧
        Works settings Memory.backend m RateMeter.defaultTick 0 handle := by
  intro settings m
  have hvalid : settings.validate = .ok () := rfl
  obtain ⟨handle, hbuild, hworks⟩ :=
    build_of_validate settings hvalid Memory.backend m (by decide) .default rfl 0
  have hsize : handle.database.chunkSize = 1000000 := hworks.chunkSize.1
  have hleast : handle.database.minCombinedChunk = 1 := hworks.chunkSize.2
  obtain ⟨valid, hpool⟩ := hworks.pool.2 _ rfl
  have hwords := hworks.words 1000000 1 (by rw [hsize]; rfl) (by rw [hleast]; rfl) (some largestWord)
  exact ⟨hvalid, by decide, handle, hbuild, hsize, by rw [hpool]; rfl, (hwords 1).2, (hwords 0).2,
    hworks⟩

end Setup

end Historian
