import Historian.Proofs.Toml.Tables
import Historian.Settings.File

/-!
# Saved settings, loaded again

Settings that can be saved are loaded from their file, and only one field may have changed: a purge
without a default period is written without one, and a purge read without one keeps values for the
usual period.

* `Settings.stored` — the document that is written.
* `Settings.storable?_eq_some` — which settings can be saved: those whose numbers fit.
* `Settings.ofDocument_stored` — what is read from that document, field by field.
* `Settings.load_save_eq_iff` — settings come back as they were exactly if they name a default period.
-/

set_option autoImplicit false

namespace Historian

open Document

/-! ## Fields -/

/-- A number that is stored in a file. -/
theorem asUnsigned_natDocument {n : Nat} (h : fitsSigned 64 n = true) :
    asUnsigned 64 (natDocument n) = some n := by
  simp only [fitsSigned, Bool.and_eq_true, decide_eq_true_eq] at h
  have hfits : fitsUnsigned 64 n = true := by
    have hlt : (n : Int) < twoTo 63 := h.2
    have hle : ((twoTo 63 : Nat) : Int) ≤ (twoTo 64 : Nat) := by decide
    simp only [fitsUnsigned, Bool.and_eq_true, decide_eq_true_eq]
    omega
  simp [natDocument, asUnsigned, hfits]

theorem nullable_natDocument {n : Nat} (h : fitsSigned 64 n = true) :
    nullable (asUnsigned 64) (natDocument n) = some (some n) := by
  rw [← Option.map_some, ← asUnsigned_natDocument h]
  rfl

/-- A number of 32 bits is stored whatever it is. -/
theorem fitsSigned_halfWord (n : UInt32) : fitsSigned 64 n.toNat = true := by
  have hlt : n.toNat < 4294967296 := n.toNat_lt
  have hle : ((4294967296 : Nat) : Int) ≤ (twoTo (64 - 1) : Nat) := by decide
  simp only [fitsSigned, Bool.and_eq_true, decide_eq_true_eq]
  omega

theorem halfWordOfDocument_natDocument (n : UInt32) :
    halfWordOfDocument (natDocument n.toNat) = some n := by
  have hlt : n.toNat < 4294967296 := n.toNat_lt
  have hle : (4294967296 : Int) ≤ (twoTo 32 : Nat) := by decide
  have hfits : fitsUnsigned 32 n.toNat = true := by
    simp only [fitsUnsigned, Bool.and_eq_true, decide_eq_true_eq]
    omega
  simp [halfWordOfDocument, natDocument, asUnsigned, hfits]

/-- The entry of a field that may be absent. -/
def optionalEntry {α : Type} (key : String) (write : α → Document) (x : Option α) :
    List (String × Document) :=
  x.toList.map fun x => (key, write x)

/-- The entry of a number that fits. -/
theorem scalarEntry_natDocument {key : String} (hkey : Toml.isBareKey key = true) {n : Nat}
    (h : fitsSigned 64 n = true) : Toml.ScalarEntry (key, natDocument n) := .of hkey (.integer h)

/-! ## Periods -/

namespace Period

theorem ofDocument_toDocument (p : Period) : ofDocument Toml.dialect p.toDocument = some p := by
  have hread : ∀ d d', ofDocument Toml.dialect (.table [("count", d), ("unit", d')]) =
      (halfWordOfDocument d).bind fun n =>
        (choice Toml.dialect PeriodUnit.named d').bind fun u => some ⟨n, u⟩ := fun _ _ => rfl
  have hunit : choice Toml.dialect PeriodUnit.named (.text p.unit.name) = some p.unit := by
    cases p.unit <;> rfl
  rw [toDocument, hread, halfWordOfDocument_natDocument, hunit]
  rfl

theorem section_toDocument (p : Period) (depth : Nat) : Toml.Section depth p.toDocument := by
  have hkeys : ["count", "unit"].Nodup := by decide
  refine .of_scalars (List.forall_mem_cons.2 ⟨?_, List.forall_mem_singleton.2 ?_⟩) hkeys
  · exact scalarEntry_natDocument (by decide) (fitsSigned_halfWord p.count)
  · exact .of (by decide) (.text p.unit.name)

end Period

/-! ## Reading -/

namespace ReadSettings

/-- What is written of the settings. -/
def stored (s : ReadSettings) : Document :=
  .table (optionalEntry "chunk_size" natDocument s.chunkSize ++
    [("min_combined_chunk_size", natDocument s.minCombinedChunk)])

theorem withoutNulls_toDocument (s : ReadSettings) :
    Toml.withoutNulls s.toDocument = s.stored := by
  obtain ⟨chunkSize, minCombinedChunk⟩ := s
  cases chunkSize <;> rfl

variable {s : ReadSettings} (h : ∀ n ∈ Toml.numbersOf s.toDocument, fitsSigned 64 n = true)
include h

theorem ofDocument_stored : ofDocument Toml.dialect s.stored = some s := by
  obtain ⟨chunkSize, minCombinedChunk⟩ := s
  cases chunkSize with
  | none =>
    have hread : ∀ d, ofDocument Toml.dialect (.table [("min_combined_chunk_size", d)]) =
        (asUnsigned 64 d).bind fun n => some ⟨none, n⟩ := fun _ => rfl
    have hmin := asUnsigned_natDocument (h minCombinedChunk (.head _))
    rw [stored, optionalEntry, Option.toList_none, List.map_nil, List.nil_append, hread, hmin]
    rfl
  | some n =>
    have hread : ∀ d d', ofDocument Toml.dialect
        (.table [("chunk_size", d), ("min_combined_chunk_size", d')]) =
          (nullable (asUnsigned 64) d).bind fun n => (asUnsigned 64 d').bind fun m => some ⟨n, m⟩ :=
      fun _ _ => rfl
    have hchunk := nullable_natDocument (h n (.head _))
    have hmin := asUnsigned_natDocument (h minCombinedChunk (.tail _ (.head _)))
    rw [stored, optionalEntry, Option.toList_some, List.map_singleton, List.singleton_append, hread,
      hchunk, hmin]
    rfl

theorem section_stored (depth : Nat) : Toml.Section depth s.stored := by
  obtain ⟨chunkSize, minCombinedChunk⟩ := s
  cases chunkSize with
  | none =>
    have hkeys : ["min_combined_chunk_size"].Nodup := by decide
    refine .of_scalars (List.forall_mem_singleton.2 ?_) hkeys
    exact scalarEntry_natDocument (by decide) (h minCombinedChunk (.head _))
  | some n =>
    have hkeys : ["chunk_size", "min_combined_chunk_size"].Nodup := by decide
    refine .of_scalars (List.forall_mem_cons.2 ⟨?_, List.forall_mem_singleton.2 ?_⟩) hkeys
    · exact scalarEntry_natDocument (by decide) (h n (.head _))
    · exact scalarEntry_natDocument (by decide) (h minCombinedChunk (.tail _ (.head _)))

end ReadSettings

/-! ## Queued writing -/

namespace WriterSettings

variable {s : WriterSettings} (h : ∀ n ∈ Toml.numbersOf s.toDocument, fitsSigned 64 n = true)
include h

theorem fits : fitsSigned 64 s.workers = true ∧ fitsSigned 64 s.maxBatch = true ∧
    fitsSigned 64 s.maxDelay = true ∧ fitsSigned 64 s.capacity = true :=
  ⟨h _ (.head _), h _ (.tail _ (.head _)), h _ (.tail _ (.tail _ (.head _))),
    h _ (.tail _ (.tail _ (.tail _ (.head _))))⟩

theorem ofDocument_toDocument : ofDocument Toml.dialect s.toDocument = some s := by
  have hread : ∀ d₁ d₂ d₃ d₄ d₅, ofDocument Toml.dialect
      (.table [("num_workers", d₁), ("max_batch_size", d₂), ("max_batch_delay_ms", d₃),
        ("queue_capacity", d₄), ("overflow", d₅)]) =
      (asUnsigned 64 d₁).bind fun n₁ => (asUnsigned 64 d₂).bind fun n₂ =>
        (asUnsigned 64 d₃).bind fun n₃ => (asUnsigned 64 d₄).bind fun n₄ =>
          (choice Toml.dialect Overflow.named d₅).bind fun o => some ⟨n₁, n₂, n₃, n₄, o⟩ :=
    fun _ _ _ _ _ => rfl
  have hoverflow : choice Toml.dialect Overflow.named (.text s.overflow.name) = some s.overflow := by
    cases s.overflow <;> rfl
  obtain ⟨hworkers, hbatch, hdelay, hcapacity⟩ := fits h
  rw [toDocument, hread, asUnsigned_natDocument hworkers, asUnsigned_natDocument hbatch,
    asUnsigned_natDocument hdelay, asUnsigned_natDocument hcapacity, hoverflow]
  rfl

theorem section_toDocument (depth : Nat) : Toml.Section depth s.toDocument := by
  have hkeys : ["num_workers", "max_batch_size", "max_batch_delay_ms", "queue_capacity",
      "overflow"].Nodup := by decide
  obtain ⟨hworkers, hbatch, hdelay, hcapacity⟩ := fits h
  refine .of_scalars (List.forall_mem_cons.2 ⟨?_, List.forall_mem_cons.2 ⟨?_,
    List.forall_mem_cons.2 ⟨?_, List.forall_mem_cons.2 ⟨?_, List.forall_mem_singleton.2 ?_⟩⟩⟩⟩) hkeys
  · exact scalarEntry_natDocument (by decide) hworkers
  · exact scalarEntry_natDocument (by decide) hbatch
  · exact scalarEntry_natDocument (by decide) hdelay
  · exact scalarEntry_natDocument (by decide) hcapacity
  · exact .of (by decide) (.text s.overflow.name)

end WriterSettings

/-! ## Purge -/

namespace PurgeSettings

/-- What is written of the settings. -/
def stored (s : PurgeSettings) : Document :=
  .table ([("enabled", .bool s.enabled), ("interval_secs", natDocument s.intervalSeconds),
    ("run_on_start", .bool s.runOnStart)] ++
      optionalEntry "default_period" Period.toDocument s.defaultPeriod)

/-- The settings with the usual default period if they have none. -/
def reloaded (s : PurgeSettings) : PurgeSettings :=
  { s with defaultPeriod := s.defaultPeriod.or default.defaultPeriod }

theorem reloaded_eq_iff {s : PurgeSettings} : s.reloaded = s ↔ s.defaultPeriod.isSome = true := by
  obtain ⟨enabled, intervalSeconds, runOnStart, defaultPeriod⟩ := s
  cases defaultPeriod <;> simp [reloaded, default]

theorem withoutNulls_toDocument (s : PurgeSettings) :
    Toml.withoutNulls s.toDocument = s.stored := by
  obtain ⟨enabled, intervalSeconds, runOnStart, defaultPeriod⟩ := s
  cases defaultPeriod <;> rfl

variable {s : PurgeSettings} (h : ∀ n ∈ Toml.numbersOf s.toDocument, fitsSigned 64 n = true)
include h

theorem ofDocument_stored : ofDocument Toml.dialect s.stored = some s.reloaded := by
  obtain ⟨enabled, intervalSeconds, runOnStart, defaultPeriod⟩ := s
  have hinterval := asUnsigned_natDocument (h intervalSeconds (.head _))
  cases defaultPeriod with
  | none =>
    have hread : ∀ d, ofDocument Toml.dialect (.table [("enabled", .bool enabled),
        ("interval_secs", d), ("run_on_start", .bool runOnStart)]) =
          (asUnsigned 64 d).bind fun n => some ⟨enabled, n, runOnStart, default.defaultPeriod⟩ :=
      fun _ => rfl
    rw [stored, optionalEntry, Option.toList_none, List.map_nil, List.append_nil, hread, hinterval]
    rfl
  | some p =>
    have hread : ∀ d d', ofDocument Toml.dialect (.table [("enabled", .bool enabled),
        ("interval_secs", d), ("run_on_start", .bool runOnStart), ("default_period", d')]) =
          (asUnsigned 64 d).bind fun n => (nullable (Period.ofDocument Toml.dialect) d').bind fun p =>
            some ⟨enabled, n, runOnStart, p⟩ :=
      fun _ _ => rfl
    have hperiod : nullable (Period.ofDocument Toml.dialect) p.toDocument = some (some p) := by
      rw [← Option.map_some, ← p.ofDocument_toDocument]
      rfl
    rw [stored, optionalEntry, Option.toList_some, List.map_singleton, List.cons_append,
      List.cons_append, List.singleton_append, hread, hinterval, hperiod]
    rfl

theorem section_stored (depth : Nat) : Toml.Section (depth + 1) s.stored := by
  obtain ⟨enabled, intervalSeconds, runOnStart, defaultPeriod⟩ := s
  have hscalars : ∀ e ∈ [("enabled", Document.bool enabled),
      ("interval_secs", natDocument intervalSeconds), ("run_on_start", .bool runOnStart)],
      Toml.ScalarEntry e := by
    refine List.forall_mem_cons.2 ⟨?_, List.forall_mem_cons.2 ⟨?_, List.forall_mem_singleton.2 ?_⟩⟩
    · exact .of (by decide) (.bool enabled)
    · exact scalarEntry_natDocument (by decide) (h intervalSeconds (.head _))
    · exact .of (by decide) (.bool runOnStart)
  cases defaultPeriod with
  | none =>
    have hkeys : ["enabled", "interval_secs", "run_on_start"].Nodup := by decide
    exact .intro hscalars (by simp) hkeys .nil
  | some p =>
    have hkeys : ["enabled", "interval_secs", "run_on_start", "default_period"].Nodup := by decide
    exact .intro hscalars (by simp) hkeys (.push _ (by decide) (p.section_toDocument depth) .nil)

end PurgeSettings

/-! ## Logging -/

namespace LogSettings

theorem ofDocument_toDocument (s : LogSettings) : ofDocument Toml.dialect s.toDocument = some s := rfl

theorem section_toDocument (s : LogSettings) (depth : Nat) : Toml.Section depth s.toDocument := by
  have hkeys : ["log_level", "structured_logging"].Nodup := by decide
  refine .of_scalars (List.forall_mem_cons.2 ⟨?_, List.forall_mem_singleton.2 ?_⟩) hkeys
  · exact .of (by decide) (.text s.level)
  · exact .of (by decide) (.bool s.structured)

end LogSettings

/-! ## All settings -/

namespace Settings

/-- What is written of the settings. -/
def stored (s : Settings) : Document :=
  .table ([("store", s.read.stored)] ++ optionalEntry "writer" WriterSettings.toDocument s.writer ++
    [("purge", s.purge.stored), ("monitoring", s.log.toDocument)])

/-- The settings as they come back: a purge without a default period has the usual one. -/
def reloaded (s : Settings) : Settings := { s with purge := s.purge.reloaded }

theorem reloaded_eq_iff {s : Settings} :
    s.reloaded = s ↔ s.purge.defaultPeriod.isSome = true := by
  rw [← PurgeSettings.reloaded_eq_iff]
  obtain ⟨read, writer, purge, log⟩ := s
  simp [reloaded]

theorem withoutNulls_toDocument (s : Settings) : Toml.withoutNulls s.toDocument = s.stored := by
  obtain ⟨read, writer, purge, log⟩ := s
  rw [stored, ← read.withoutNulls_toDocument, ← purge.withoutNulls_toDocument]
  cases writer <;> rfl

variable {s : Settings} (h : ∀ n ∈ Toml.numbersOf s.toDocument, fitsSigned 64 n = true)
include h

theorem read_fits : ∀ n ∈ Toml.numbersOf s.read.toDocument, fitsSigned 64 n = true :=
  fun n hn => h n (List.mem_append_left _ hn)

theorem writer_fits {w : WriterSettings} (hw : s.writer = some w) :
    ∀ n ∈ Toml.numbersOf w.toDocument, fitsSigned 64 n = true := by
  obtain ⟨read, writer, purge, log⟩ := s
  cases hw
  exact fun n hn => h n (List.mem_append_right _ (List.mem_append_left _ hn))

theorem purge_fits : ∀ n ∈ Toml.numbersOf s.purge.toDocument, fitsSigned 64 n = true :=
  fun n hn => h n (List.mem_append_right _ (List.mem_append_right _ (List.mem_append_left _ hn)))

/-- Settings are read from what is written of them. -/
theorem ofDocument_stored : ofDocument Toml.dialect s.stored = some s.reloaded := by
  have hstore := ReadSettings.ofDocument_stored (read_fits h)
  have hpurge := PurgeSettings.ofDocument_stored (purge_fits h)
  have hlog := s.log.ofDocument_toDocument
  cases hwriter : s.writer with
  | none =>
    have hread : ∀ d₁ d₂ d₃, ofDocument Toml.dialect
        (.table [("store", d₁), ("purge", d₂), ("monitoring", d₃)]) =
          (ReadSettings.ofDocument Toml.dialect d₁).bind fun r =>
            (PurgeSettings.ofDocument Toml.dialect d₂).bind fun p =>
              (LogSettings.ofDocument Toml.dialect d₃).bind fun l => some ⟨r, none, p, l⟩ :=
      fun _ _ _ => rfl
    rw [stored, hwriter, optionalEntry, Option.toList_none, List.map_nil, List.append_nil,
      List.singleton_append, hread, hstore, hpurge, hlog, reloaded, ← hwriter]
    rfl
  | some w =>
    have hread : ∀ d₁ d₂ d₃ d₄, ofDocument Toml.dialect
        (.table [("store", d₁), ("writer", d₂), ("purge", d₃), ("monitoring", d₄)]) =
          (ReadSettings.ofDocument Toml.dialect d₁).bind fun r =>
            (nullable (WriterSettings.ofDocument Toml.dialect) d₂).bind fun w =>
              (PurgeSettings.ofDocument Toml.dialect d₃).bind fun p =>
                (LogSettings.ofDocument Toml.dialect d₄).bind fun l => some ⟨r, w, p, l⟩ :=
      fun _ _ _ _ => rfl
    have hqueue : nullable (WriterSettings.ofDocument Toml.dialect) w.toDocument = some (some w) := by
      rw [← Option.map_some, ← WriterSettings.ofDocument_toDocument (writer_fits h hwriter)]
      rfl
    rw [stored, hwriter, optionalEntry, Option.toList_some, List.map_singleton,
      List.singleton_append, List.cons_append, List.singleton_append, hread, hstore, hqueue, hpurge,
      hlog, reloaded, ← hwriter]
    rfl

theorem regular_stored : Toml.Regular s.stored := by
  have hlast : Toml.Sections Toml.maxDepth
      [("purge", s.purge.stored), ("monitoring", s.log.toDocument)] :=
    .push "purge" (by decide) (PurgeSettings.section_stored (purge_fits h) 77) <|
      .push "monitoring" (by decide) (s.log.section_toDocument 78) .nil
  have hstore := ReadSettings.section_stored (read_fits h) 78
  cases hwriter : s.writer with
  | none =>
    have hkeys : ["store", "purge", "monitoring"].Nodup := by decide
    have htables := Toml.Sections.push "store" (by decide) hstore hlast
    rw [stored, hwriter]
    exact .of_sections htables hkeys
  | some w =>
    have hkeys : ["store", "writer", "purge", "monitoring"].Nodup := by decide
    have hqueue := WriterSettings.section_toDocument (writer_fits h hwriter) 78
    have htables := Toml.Sections.push "store" (by decide) hstore <|
      .push "writer" (by decide) hqueue hlast
    rw [stored, hwriter]
    exact .of_sections htables hkeys

omit h

/-! ## Files -/

theorem load_text {text : String} {s : Settings} (h : ofText? text = some s) (path : String) :
    load path (some text.toUTF8) = .ok s := by
  have htext : String.fromUTF8? text.toUTF8 = some text := by
    simp only [String.fromUTF8?, String.toUTF8_eq_toByteArray, dif_pos text.isValidUTF8]
    rfl
  simp only [load, htext, h]

/-- Saved settings can be loaded. -/
theorem load_save {text : String} (h : s.save = .ok text) (path : String) :
    load path (some text.toUTF8) = .ok s.reloaded := by
  rw [save] at h
  split at h
  · cases h
  · rename_i written hwrite
    cases h
    obtain ⟨d, hd, -⟩ := Option.map_eq_some_iff.1 hwrite
    obtain ⟨-, hfits⟩ := Toml.storable?_eq_some hd
    have hread := Toml.read_write hwrite fun hfits => by
      rw [withoutNulls_toDocument]
      exact regular_stored hfits
    rw [withoutNulls_toDocument] at hread
    exact load_text (by rw [ofText?, hread, Option.bind_some, ofDocument_stored hfits]) path

/-- Saved settings come back as they were exactly if their purge has a default period. -/
theorem load_save_eq_iff {text : String} (h : s.save = .ok text) (path : String) :
    load path (some text.toUTF8) = .ok s.reloaded ∧
      (load path (some text.toUTF8) = .ok s ↔ s.purge.defaultPeriod.isSome = true) := by
  have hload := load_save h path
  refine ⟨hload, ?_⟩
  rw [hload, Except.ok.injEq, reloaded_eq_iff]

/-- Settings can be saved if their document can be written. -/
theorem exists_save (h : (Toml.storable? s.toDocument).isSome = true) :
    ∃ text, s.save = .ok text := by
  obtain ⟨d, hd⟩ := Option.isSome_iff_exists.1 h
  exact ⟨Toml.render d, by rw [save, Toml.write, hd]; rfl⟩

/-- Settings that queue writes and keep values for six months come back as they were. -/
theorem load_save_eq_iff_six_months :
    ∃ text, save { default with writer := some .default, purge.defaultPeriod := some ⟨6, .months⟩ } =
        .ok text ∧
      load "pointvalues.toml" (some text.toUTF8) =
        .ok { default with writer := some .default, purge.defaultPeriod := some ⟨6, .months⟩ } := by
  obtain ⟨text, htext⟩ := exists_save
    (s := { default with writer := some .default, purge.defaultPeriod := some ⟨6, .months⟩ }) (by decide)
  exact ⟨text, htext, (load_save_eq_iff htext "pointvalues.toml").2.2 rfl⟩

/-- Settings that keep values for ever come back with values kept for a year. -/
theorem load_save_no_period :
    ∃ text, save { default with purge.defaultPeriod := none } = .ok text ∧
      load "pointvalues.toml" (some text.toUTF8) ≠
        .ok { default with purge.defaultPeriod := none } := by
  obtain ⟨text, htext⟩ := exists_save (s := { default with purge.defaultPeriod := none }) (by decide)
  refine ⟨text, htext, fun h => ?_⟩
  rw [load_save htext] at h
  exact absurd (Except.ok.inj h) (by decide)

end Settings

end Historian
