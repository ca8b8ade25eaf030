import Historian.Proofs.Read.Rows
import Historian.Proofs.Store.Changes
import Historian.Proofs.Store.Stored
import Mathlib.Data.Set.Card

/-!
# A store in memory is a finite map

To its users a store is a `Ledger`: a finite map from places, which are a series and a time, to
entries.  Histories that are empty, the order in which series are kept and the counters of calls
cannot be told from the answers.

* `Ledger.Step` — how a ledger answers one call, and what it holds afterwards.
* `Ledger.Step.held_of_failed` — a call that fails changes nothing that is held.
* `Memory.serve_step`, `Memory.serveAll_run` — a store in memory answers every call, and hence every
  sequence of calls, as its ledger does.
-/

set_option autoImplicit false

namespace Historian

/-- What an entry is filed under. -/
abbrev Place := SeriesId × Timestamp

/-- The place of a row. -/
def Row.place (r : Row) : Place := (r.series, r.time)

/-! ## Calls and answers -/

namespace Memory

/-- What can be asked of a store in memory, and what can be done to make it fail. -/
inductive Call
  | change (c : Change)
  | scan (request : Scan)
  | failWrites (n : Nat)
  | failScans (n : Nat)

/-- How a store answers a call. -/
inductive Answer
  | stored (v : Sample)
  | done
  | removed (count : Option Nat)
  | found (rows : List Row)
  | failed (cause : BackendFailure)

/-- The answer that the result of an operation is. -/
def Answer.of {α : Type} (answer : α → Answer) : Except BackendFailure α → Answer
  | .ok a => answer a
  | .error e => failed e

/-- The answer that the result of a scan is. -/
def Answer.ofScan (result : ScanResult) : Answer :=
  match result.failure with
  | some e => failed e
  | none => found result.rows

/-- What the store answers to a change. -/
def Change.answer (m : Memory) : Change → Answer
  | insert series v => .of .stored (backend.insert series v m).1
  | insertBatch batch => .of (fun _ => .done) (backend.insertBatch batch m).1
  | deleteWithin series w => .of .removed (backend.deleteWithin series w m).1
  | deleteAllBefore t => .of .removed (backend.deleteAllBefore t m).1
  | deleteAll => .of .removed (backend.deleteAll m).1
  | deleteOrphaned live => .of .removed (backend.deleteOrphaned live m).1
  | setRetention p => .of (fun _ => .done) (backend.setRetention p m).1
  | enforceRetention now => .of .removed (backend.enforceRetention now m).1

/-- One call, with its answer. -/
def serve (m : Memory) : Call → Answer × Memory
  | .change c => (c.answer m, c.apply m)
  | .scan request =>
    let (result, m) := backend.scan request m
    (.ofScan result, m)
  | .failWrites n => (.done, { m with failingWrites := n })
  | .failScans n => (.done, { m with failingScans := n })

/-- Calls one after the other, with their answers in order. -/
def serveAll (m : Memory) : List Call → List Answer × Memory
  | [] => ([], m)
  | c :: rest =>
    let (answer, m) := m.serve c
    let (answers, m) := m.serveAll rest
    (answer :: answers, m)

/-- Whether the call writes. -/
def Change.writes : Change → Bool
  | insert .. => true
  | insertBatch _ => true
  | _ => false

/-- The capability without which a call is refused. -/
def Change.needs? : Change → Option Capability
  | insert .. => none
  | insertBatch _ => none
  | deleteWithin .. => some .delete
  | deleteAllBefore _ => some .deleteAllBefore
  | deleteAll => some .deleteAll
  | deleteOrphaned _ => some .deleteOrphaned
  | setRetention _ => some .retentionPolicy
  | enforceRetention _ => some .retentionPolicy

/-- The places that a removal names, under a retention period. -/
def Change.names? (retention : Option Period) : Change → Option (Place → Bool)
  | deleteWithin series w => some fun p => p.1 == series && w.contains p.2
  | deleteAllBefore t => some fun p => p.2 < t
  | deleteAll => some fun _ => true
  | deleteOrphaned live => some fun p => !live.contains p.1
  | enforceRetention now =>
    some fun p => (retention.bind fun period => period.cutoff now).any fun cutoff => p.2 < cutoff
  | _ => none

end Memory

/-! ## Ledgers -/

/-- A store as its users may think of it. -/
@[ext]
structure Ledger where
  held : Place → Option Entry
  finite : {p | (held p).isSome}.Finite
  capabilities : Capabilities
  retention : Option Period
  /-- How many of the next writes fail. -/
  failingWrites : Nat
  /-- How many of the next scans fail. -/
  failingScans : Nat

namespace Ledger

variable {l l' : Ledger}

/-- Files a sample in place of what is held there. -/
def put (l : Ledger) (series : SeriesId) (v : Sample) : Ledger :=
  { l with
    held := Function.update l.held (series, v.time) (some ⟨v.payload, v.note⟩)
    finite := (l.finite.insert (series, v.time)).subset fun p hp => by
      by_cases he : p = (series, v.time)
      · exact .inl he
      · refine .inr ?_
        rwa [Set.mem_ofPred_eq, Function.update_of_ne he] at hp }

/-- Files samples one by one. -/
def putAll (l : Ledger) (batch : List (SeriesId × Sample)) : Ledger :=
  batch.foldl (fun l e => l.put e.1 e.2) l

/-- Takes out what is held at some places. -/
def without (l : Ledger) (gone : Place → Bool) : Ledger :=
  { l with
    held := fun p => if gone p then none else l.held p
    finite := l.finite.subset fun p hp => by
      simp only [Set.mem_ofPred_eq] at hp ⊢
      split at hp
      · cases hp
      · exact hp }

/-- How many entries are held at some places. -/
noncomputable def count (l : Ledger) (among : Place → Bool) : Nat :=
  {p | (l.held p).isSome ∧ among p}.ncard

/-- `rows` is what a scan has to bring: for each series, by ascending id, the entries held in the
window, in the order of the direction and as many as the limit says. -/
def Found (l : Ledger) (request : Scan) (rows : List Row) : Prop :=
  ∃ (ids : List SeriesId) (all : SeriesId → List Row), ids.Pairwise (· < ·) ∧
    (∀ id, id ∈ ids ↔ id ∈ request.series) ∧
    (∀ id, (all id).Pairwise fun x y => request.direction.compareTimes x.time y.time = .lt) ∧
    (∀ id r, r ∈ all id ↔ r.series = id ∧ request.window.contains r.time ∧
      l.held r.place = some ⟨r.payload, r.note⟩) ∧
    rows = ids.flatMap fun id => request.limit.elim (all id) (all id).take

open Memory (Call Answer)

/-- How a ledger answers a call, and what is left of it. -/
inductive Step (l : Ledger) : Call → Answer → Ledger → Prop
  | insert (hwrites : l.failingWrites = 0) (series : SeriesId) (v : Sample) :
      Step l (.change (.insert series v)) (.stored v) (l.put series v)
  | insertBatch (hwrites : l.failingWrites = 0) (batch : List (SeriesId × Sample)) :
      Step l (.change (.insertBatch batch)) .done (l.putAll batch)
  | writeFails {c : Memory.Change} (hwrites : l.failingWrites ≠ 0) (hc : c.writes = true)
      (text : String) :
      Step l (.change c) (.failed (.unavailable text))
        { l with failingWrites := l.failingWrites - 1 }
  | remove {c : Memory.Change} {needed : Capability} {named : Place → Bool}
      (hneeds : c.needs? = some needed) (hcap : l.capabilities.supports needed = true)
      (hnames : c.names? l.retention = some named) :
      Step l (.change c) (.removed (some (l.count named))) (l.without named)
  | setRetention (hcap : l.capabilities.supports .retentionPolicy = true) (p : Period) :
      Step l (.change (.setRetention p)) .done { l with retention := some p }
  | lacking {c : Memory.Change} {needed : Capability} (hneeds : c.needs? = some needed)
      (hcap : l.capabilities.supports needed = false) :
      Step l (.change c) (.failed (.unsupported needed)) l
  | scan (hscans : l.failingScans = 0) {request : Scan} {rows : List Row}
      (hrows : l.Found request rows) : Step l (.scan request) (.found rows) l
  | scanFails (hscans : l.failingScans ≠ 0) (request : Scan) (text : String) :
      Step l (.scan request) (.failed (.unavailable text))
        { l with failingScans := l.failingScans - 1 }
  | failWrites (n : Nat) : Step l (.failWrites n) .done { l with failingWrites := n }
  | failScans (n : Nat) : Step l (.failScans n) .done { l with failingScans := n }

/-- How a ledger answers calls one after the other. -/
inductive Run : Ledger → List Call → List Answer → Ledger → Prop
  | nil (l : Ledger) : Run l [] [] l
  | cons {l l' l'' : Ledger} {c : Call} {answer : Answer} {calls : List Call}
      {answers : List Answer} (hfirst : Step l c answer l') (hrest : Run l' calls answers l'') :
      Run l (c :: calls) (answer :: answers) l''

/-- A call that fails leaves everything held as it is. -/
theorem Step.held_of_failed {c : Call} {e : BackendFailure} (h : Step l c (.failed e) l') :
    l'.held = l.held := by
  cases h <;> rfl

end Ledger

/-! ## The ledger of a store in memory -/

namespace Archive

variable {a a' : Archive}

theorem isSome_get?_iff {p : Place} :
    (a.get? p.1 p.2).isSome ↔ ∃ r ∈ a.stored, r.place = p := by
  rw [Option.isSome_iff_exists]
  constructor
  · rintro ⟨e, he⟩
    exact ⟨⟨p.1, p.2, e.payload, e.note⟩, mem_stored.2 he, rfl⟩
  · rintro ⟨r, hr, rfl⟩
    exact ⟨_, mem_stored.1 hr⟩

theorem finite_held (a : Archive) : {p : Place | (a.get? p.1 p.2).isSome}.Finite := by
  refine (a.stored.map Row.place).finite_toSet.subset fun p hp => ?_
  obtain ⟨r, hr, rfl⟩ := isSome_get?_iff.1 hp
  exact List.mem_map_of_mem hr

/-- No two rows have one place. -/
theorem nodup_places (a : Archive) : (a.stored.map Row.place).Nodup := by
  refine (List.nodup_map_iff_inj_on a.nodup_stored).2 fun r hr q hq he => ?_
  obtain ⟨hseries, htime⟩ := Prod.mk.inj he
  have hr : a.get? r.series r.time = some ⟨r.payload, r.note⟩ := mem_stored.1 hr
  have hq : a.get? q.series q.time = some ⟨q.payload, q.note⟩ := mem_stored.1 hq
  rw [hseries, htime, hq] at hr
  obtain ⟨hpayload, hnote⟩ := Entry.mk.inj (Option.some.inj hr)
  cases r
  cases q
  simp_all

/-- Entries are counted by their rows. -/
theorem ncard_held (a : Archive) (among : Place → Bool) :
    {p : Place | (a.get? p.1 p.2).isSome ∧ among p}.ncard =
      a.stored.countP fun r => among r.place := by
  have hset : {p : Place | (a.get? p.1 p.2).isSome ∧ among p} =
      (((a.stored.map Row.place).filter among).toFinset : Set Place) := by
    ext p
    simp [isSome_get?_iff]
  rw [hset, Set.ncard_coe_finset, List.toFinset_card_of_nodup ((a.nodup_places).filter _),
    List.filter_map, List.length_map, List.countP_eq_length_filter]
  rfl

/-- What is filtered out of the rows is not held any more, and all else is held as before. -/
theorem get?_of_stored_filter {gone : Place → Bool}
    (h : a'.stored = a.stored.filter fun r => !gone r.place) (p : Place) :
    a'.get? p.1 p.2 = if gone p then none else a.get? p.1 p.2 := by
  refine Option.ext fun e => ?_
  have hrow : ∀ b : Archive, b.get? p.1 p.2 = some e ↔
      (⟨p.1, p.2, e.payload, e.note⟩ : Row) ∈ b.stored := fun b => by
    rw [mem_stored]
    rfl
  rw [hrow, h, List.mem_filter, ← hrow]
  show _ ∧ (!gone p) = true ↔ _
  cases gone p <;> simp

theorem stored_before (a : Archive) (t : Timestamp) :
    (a.removeEverywhere ⟨none, some t⟩).stored =
      a.stored.filter fun r => !decide (r.place.2 < t) := by
  rw [stored_removeEverywhere]
  rfl

end Archive

namespace Memory

variable {m : Memory}

/-- The store as its users may think of it. -/
def ledger (m : Memory) : Ledger where
  held p := m.archive.get? p.1 p.2
  finite := m.archive.finite_held
  capabilities := m.capabilities
  retention := m.retention
  failingWrites := m.failingWrites
  failingScans := m.failingScans

theorem ledger_put (m : Memory) (series : SeriesId) (v : Sample) :
    { m with archive := m.archive.put series v }.ledger = m.ledger.put series v := by
  refine Ledger.ext (funext fun p => ?_) rfl rfl rfl rfl
  show (m.archive.put series v).get? p.1 p.2 =
    Function.update m.ledger.held (series, v.time) (some ⟨v.payload, v.note⟩) p
  rw [Archive.get?_put, Function.update_apply]
  exact if_congr (Prod.ext_iff (x := p) (y := (series, v.time))).symm rfl rfl

theorem ledger_putAll (m : Memory) (batch : List (SeriesId × Sample)) :
    { m with archive := m.archive.putAll batch }.ledger = m.ledger.putAll batch := by
  induction batch generalizing m with
  | nil => rfl
  | cons e rest ih =>
    refine (ih { m with archive := m.archive.put e.1 e.2 }).trans ?_
    rw [ledger_put]
    rfl

/-- A removal that filters the rows takes the places that it names out of the ledger. -/
theorem delete_step {needed : Capability} {change : Archive → Archive} {named : Place → Bool}
    (h : (change m.archive).stored = m.archive.stored.filter fun r => !named r.place)
    {c : Change} (hneeds : c.needs? = some needed) (hnames : c.names? m.retention = some named)
    (hanswer : c.answer m = .of .removed (delete needed change m).1)
    (happly : c.apply m = (delete needed change m).2) :
    m.ledger.Step (.change c) (c.answer m) (c.apply m).ledger := by
  rw [hanswer, happly]
  cases hcap : m.capabilities.supports needed with
  | false =>
    have hrequire : m.capabilities.require needed = .error (.unsupported needed) := by
      rw [Capabilities.require, hcap]
      rfl
    simp only [delete, hrequire]
    exact .lacking hneeds hcap
  | true =>
    have hledger : { m with archive := change m.archive }.ledger = m.ledger.without named :=
      Ledger.ext (funext fun p => Archive.get?_of_stored_filter h p) rfl rfl rfl rfl
    rw [delete_eq hcap change (fun r => named r.place) h, hledger, ← Archive.ncard_held]
    exact .remove hneeds hcap hnames

/-- A store in memory answers a change as its ledger does. -/
theorem change_step (m : Memory) (c : Change) :
    m.ledger.Step (.change c) (c.answer m) (c.apply m).ledger := by
  cases c with
  | insert series v =>
    show m.ledger.Step _ (.of .stored (Memory.insert series v m).1)
      (Memory.insert series v m).2.ledger
    unfold Memory.insert
    split
    · rename_i hwrites
      rw [ledger_put]
      exact .insert hwrites series v
    · rename_i hwrites
      exact .writeFails hwrites rfl _
  | insertBatch batch =>
    show m.ledger.Step _ (.of (fun _ => .done) (Memory.insertBatch batch m).1)
      (Memory.insertBatch batch m).2.ledger
    unfold Memory.insertBatch
    dsimp only
    split
    · rename_i hwrites
      have hledger := ledger_putAll { m with batches := m.batches + 1 } batch
      exact hledger ▸ .insertBatch hwrites batch
    · rename_i hwrites
      exact .writeFails hwrites rfl _
  | deleteWithin series w =>
    exact delete_step (Archive.stored_remove m.archive series w) rfl rfl rfl rfl
  | deleteAllBefore t =>
    refine delete_step ?_ rfl rfl rfl rfl
    exact Archive.stored_before m.archive t
  | deleteAll =>
    refine delete_step ?_ rfl rfl rfl rfl
    exact (List.filter_eq_nil_iff.2 fun r _ => by simp).symm
  | deleteOrphaned live =>
    refine delete_step ((Archive.stored_keepOnly m.archive live).trans ?_) rfl rfl rfl rfl
    exact List.filter_congr fun r _ => (Bool.not_not _).symm
  | setRetention p =>
    simp only [Change.answer, Change.apply, backend]
    cases hcap : m.capabilities.supports .retentionPolicy with
    | false =>
      have hrequire : m.capabilities.require .retentionPolicy =
          .error (.unsupported .retentionPolicy) := by
        rw [Capabilities.require, hcap]
        rfl
      rw [hrequire]
      exact .lacking rfl hcap
    | true =>
      have hrequire : m.capabilities.require .retentionPolicy = .ok () := by
        rw [Capabilities.require, if_pos hcap]
      rw [hrequire]
      exact .setRetention hcap p
  | enforceRetention now =>
    refine delete_step ?_ rfl rfl rfl rfl
    cases m.retention.bind fun period => period.cutoff now with
    | none => exact (List.filter_eq_self.2 fun r _ => rfl).symm
    | some cutoff => exact Archive.stored_before m.archive cutoff

/-- A scan finds what its ledger holds. -/
theorem found_ledger (m : Memory) (request : Scan) :
    m.ledger.Found request (found m.archive request) := by
  refine ⟨SortedMap.distinct request.series,
    fun id => m.archive.rows id request.window request.direction, ?_,
    fun id => SortedMap.mem_distinct, fun id => Archive.pairwise_rows .., fun id r => ?_, rfl⟩
  · exact (SortedMap.pairwise_distinct _).imp Std.compare_eq_lt.1
  · rw [Archive.mem_rows]
    refine and_congr_right fun hseries => ?_
    rw [← hseries]
    rfl

/-- A store in memory answers a call as its ledger does. -/
theorem serve_step (m : Memory) (c : Call) :
    m.ledger.Step c (m.serve c).1 (m.serve c).2.ledger := by
  cases c with
  | change c => exact change_step m c
  | scan request =>
    show m.ledger.Step _ (.ofScan (scan request m).1) (scan request m).2.ledger
    unfold scan
    dsimp only
    split
    · rename_i hscans
      exact .scan hscans (found_ledger m request)
    · rename_i hscans
      exact .scanFails hscans request _
  | failWrites n => exact .failWrites n
  | failScans n => exact .failScans n

/-- Whatever is asked of a store in memory, it answers as a finite map. -/
theorem serveAll_run (m : Memory) (calls : List Call) :
    m.ledger.Run calls (m.serveAll calls).1 (m.serveAll calls).2.ledger := by
  induction calls generalizing m with
  | nil => exact .nil _
  | cons c rest ih => exact .cons (serve_step m c) (ih (m.serve c).2)

end Memory

end Historian
