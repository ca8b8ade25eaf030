import Historian.Proofs.Read.SweepingReads
import Historian.Proofs.Store.Changes

/-!
# Reads of a store in memory that changes

Between two rows of a read the store may be changed in any way: by the receiver of the rows, or by
whoever drives the stream between two calls.  A `Database.Read` is run against rounds of changes, and
`Database.Read.Steady` says what its rows are worth all the same.

* `Memory.After` — the store after a round, whatever reading has counted in it.
* `Database.Read.run_steady` — every read of a store in memory is steady.
-/

set_option autoImplicit false

namespace Historian

/-! ## The store between two rows -/

/-- A receiver that makes round `n` of the changes after the `n`-th row. -/
def Reaction.ofChanges (changes : Nat → List Memory.Change) : Reaction Memory :=
  fun n _ m => m.applyAll (changes n)

namespace Memory

variable {changes : Nat → List Change} {m : Memory}

/-- The store after round `n`, whatever reading has counted in it. -/
def After (changes : Nat → List Change) (m : Memory) (n : Nat) (s : Memory) : Prop :=
  ∃ scans leases, s = (m.evolve changes n).counted scans leases

theorem After.counted {n : Nat} {s : Memory} (h : After changes m n s) (scans leases : Nat) :
    After changes m n (s.counted scans leases) := by
  obtain ⟨_, _, rfl⟩ := h
  exact ⟨scans, leases, rfl⟩

theorem After.zero (scans leases : Nat) :
    After changes m 0 ((m.counted scans leases).applyAll (changes 0)) :=
  ⟨scans, leases, applyAll_counted (changes 0) m scans leases⟩

theorem After.next {n : Nat} {s : Memory} (h : After changes m n s) :
    After changes m (n + 1) (s.applyAll (changes (n + 1))) := by
  obtain ⟨scans, leases, rfl⟩ := h
  exact ⟨scans, leases, applyAll_counted ..⟩

theorem After.intact (hscans : m.failingScans = 0) {n : Nat} {s : Memory}
    (h : After changes m n s) : Intact (m.evolve changes n).archive s := by
  obtain ⟨_, _, rfl⟩ := h
  exact ⟨(evolve_failingScans changes m n).trans hscans, rfl⟩

theorem scan_counted {m : Memory} (h : m.failingScans = 0) (request : Scan) :
    (scan request m).2 = m.counted (m.scans + 1) m.openLeases := by
  rw [scan]
  exact congrArg Prod.snd (if_pos h)

end Memory

/-- A read needs of the states of a backend only that it keeps to them. -/
theorem Backend.ReadsFrom.restrict {σ : Type} {b : Backend σ} {a : Archive} {Intact P : σ → Prop}
    (h : b.ReadsFrom a Intact) (hP : ∀ s, P s → Intact s)
    (hscan : ∀ s series w (n : Nat) d, P s → P (b.scan ⟨[series], w, some n, d⟩ s).2)
    (hopen : ∀ s, P s → P (b.openLease s).2) (hrelease : ∀ l s, P s → P (b.releaseLease l s)) :
    b.ReadsFrom a P where
  scan s hs series w n d hn := by
    obtain ⟨k, hk, hrows, -⟩ := h.scan s (hP s hs) series w n d hn
    exact ⟨k, hk, hrows, hscan s series w n d hs⟩
  openLease s hs := by
    obtain ⟨l, hl, -⟩ := h.openLease s (hP s hs)
    exact ⟨l, hl, hopen s hs⟩
  releaseLease := hrelease

namespace Database

variable {db : Database Memory}

theorem OverMemory.scan_counted (h : db.OverMemory) {m : Memory} (hscans : m.failingScans = 0)
    (request : Scan) :
    (db.backend.scan request m).2 = m.counted (m.scans + 1) m.openLeases := by
  rcases h with h | ⟨_, _, h⟩ <;> rw [h] <;> exact Memory.scan_counted hscans _

theorem OverMemory.openLease_eq (h : db.OverMemory) (m : Memory) :
    ∃ lease leases, db.backend.openLease m = (.ok lease, m.counted m.scans leases) := by
  rcases h with h | ⟨_, _, h⟩ <;> rw [h]
  · exact ⟨⟨true⟩, m.openLeases + 1, rfl⟩
  · exact ⟨.detached, m.openLeases, rfl⟩

theorem OverMemory.releaseLease_eq (h : db.OverMemory) (lease : Lease) (m : Memory) :
    ∃ leases, db.backend.releaseLease lease m = m.counted m.scans leases := by
  rcases h with h | ⟨_, _, h⟩ <;> rw [h]
  · exact ⟨m.openLeases - lease.releases, rfl⟩
  · exact ⟨m.openLeases, rfl⟩

theorem OverMemory.readsFrom_after (h : db.OverMemory) {changes : Nat → List Memory.Change}
    {m : Memory} (hscans : m.failingScans = 0) (n : Nat) :
    db.backend.ReadsFrom (m.evolve changes n).archive (Memory.After changes m n) := by
  refine (h.readsFrom _).restrict (fun s hs => hs.intact hscans) (fun s series w k d hs => ?_)
    (fun s hs => ?_) fun lease s hs => ?_
  · rw [h.scan_counted (hs.intact hscans).1]
    exact hs.counted _ _
  · obtain ⟨lease, leases, hopen⟩ := h.openLease_eq s
    rw [hopen]
    exact hs.counted _ _
  · obtain ⟨leases, hrelease⟩ := h.releaseLease_eq lease s
    rw [hrelease]
    exact hs.counted _ _

end Database

/-! ## Opening and driving streams -/

namespace Database

/-- Opens a stream and asks it up to `calls` times, with a round of changes before the first call
and after every row. -/
def drive (db : Database Memory) (changes : Nat → List Memory.Change) (calls : Nat)
    (opened : StateM Memory (Except Failure Stream)) (m : Memory) : Delivery :=
  match opened m with
  | (.error e, _) => .refused e
  | (.ok t, m) =>
    (deliverRows (Stream.next db.backend) (.ofChanges changes) calls 0 t
      (m.applyAll (changes 0))).1

theorem checkArguments_eq_ok_iff {start stop : Option Timestamp} {arg : Option Int} {w : Window}
    {limit : Option Nat} :
    checkArguments start stop arg = .ok (w, limit) ↔
      Window.new start stop = .ok w ∧ checkLimit arg = .ok limit := by
  unfold checkArguments
  cases Window.new start stop with
  | error e =>
    constructor
    · rintro ⟨⟩
    · rintro ⟨⟨⟩, -⟩
  | ok w' =>
    cases checkLimit arg with
    | error e =>
      constructor
      · rintro ⟨⟩
      · rintro ⟨-, ⟨⟩⟩
    | ok l =>
      constructor
      · rintro ⟨⟩
        exact ⟨rfl, rfl⟩
      · rintro ⟨⟨⟩, ⟨⟩⟩
        rfl

theorem ok_of_checkArguments {start stop : Option Timestamp} {arg : Option Int} {w : Window}
    {limit : Option Nat} (h : checkArguments start stop arg = .ok (w, limit)) :
    w = ⟨start, stop⟩ ∧ limit = arg.map Int.toNat := by
  obtain ⟨hwindow, hlimit⟩ := checkArguments_eq_ok_iff.1 h
  refine ⟨Window.eq_of_new hwindow, ?_⟩
  cases arg with
  | none =>
    cases hlimit
    rfl
  | some l =>
    rw [checkLimit] at hlimit
    split at hlimit
    · cases hlimit
    · cases hlimit
      rfl

/-- A stream of a store in memory, opened and driven. -/
theorem drive_tracked {db : Database Memory} (hdb : db.OverMemory) {w : Window} {limit : Option Nat}
    {d : Direction}
    {changes : Nat → List Memory.Change} {m : Memory} (hscans : m.failingScans = 0)
    {before : Row → Row → Prop} {lost : List Row → Row → Prop} {B : Outlook StreamBody}
    (hbody : Sweeps (fun n => (m.evolve changes n).archive) before lost lost
      (StreamBody.next db.backend) (Memory.After changes m) B)
    (hmore : ∀ given more r, lost given r → lost (given ++ more) r)
    {points : List Point} {start stop : Option Timestamp} {arg : Option Int}
    (hargs : checkArguments start stop arg = .ok (w, limit))
    (body : List LimitedCursor → StreamBody) (total : Option Nat → Option Nat)
    (hok : B.ok 0 [] (body (db.openCursors points w limit d)))
    (hahead : ∀ r, B.ahead (body (db.openCursors points w limit d)) r ↔
      r.series ∈ seriesOf points ∧ w.contains r.time = true)
    (htotal : ∀ rows r, CutOff before (total limit) rows r → lost rows r)
    (hzero : limit = some 0 → ∀ r, lost [] r) (calls : Nat) :
    ∃ rows, db.drive changes calls (db.openStream points start stop arg d body total) m =
        ⟨rows, none⟩ ∧
      Tracked (fun n => (m.evolve changes n).archive) before
        (fun rows r => lost rows r ∨ rows.length = calls) 0
        (fun r => r.series ∈ seriesOf points ∧ w.contains r.time = true) rows := by
  have hb : ∀ n, db.backend.ReadsFrom (m.evolve changes n).archive (Memory.After changes m n) :=
    hdb.readsFrom_after hscans
  have hreact : ∀ i r s, Memory.After changes m i s →
      Memory.After changes m (i + 1) (Reaction.ofChanges changes (i + 1) r s) :=
    fun _ _ _ hs => hs.next
  by_cases hnone : limit = some 0
  · refine ⟨[], ?_, .nil fun r _ _ => .inl (hzero hnone r)⟩
    simp only [drive, openStream, hargs, hnone, if_true]
    exact Stream.deliver_empty ..
  · obtain ⟨lease, leases, hopen⟩ := hdb.openLease_eq m
    obtain ⟨rows, s', hdeliver, htracked⟩ :=
      stream_tracked hb hreact hbody hmore hok lease (total limit) calls
        (Memory.After.zero m.scans leases)
    refine ⟨rows, ?_, htracked.mono hahead fun r _ hgone => ?_⟩
    · simp only [drive, openStream, hargs, hnone, if_false, hopen]
      exact congrArg Prod.fst hdeliver
    · exact hgone.imp_left fun hgone => hgone.elim id (htotal rows r)

/-! ## Every read -/

/-- What is asked for by a read. -/
structure Query where
  points : List Point
  start : Option Timestamp
  stop : Option Timestamp
  limit : Option Int
  direction : Direction

/-- A read of rows, by a receiver or driven. -/
inductive Read
  | perPoint (q : Query)
  | combined (q : Query)
  | range (p : Point) (start stop : Timestamp)
  | streamPerPoint (q : Query)
  | streamCombined (q : Query)

namespace Read

/-- What is asked for. -/
def query : Read → Query
  | perPoint q | combined q | streamPerPoint q | streamCombined q => q
  | range p start stop => ⟨[p], some start, some stop, none, .ascending⟩

/-- The order in which rows are to come. -/
def Before (read : Read) : Row → Row → Prop :=
  match read with
  | perPoint q | streamPerPoint q => q.direction.TurnsTo
  | combined q | streamCombined q => q.direction.MeetsFirst
  | range .. => Direction.ascending.TurnsTo

/-- The row has a series and a time that are asked for. -/
def Asked (read : Read) (r : Row) : Prop :=
  r.series ∈ read.query.points.map Point.series ∧
    (⟨read.query.start, read.query.stop⟩ : Window).contains r.time = true

/-- The limit has kept the row from being handed over: so many rows that go before it were, of its
series if the limit is on each of them. -/
def Cut (read : Read) : List Row → Row → Prop :=
  match read with
  | perPoint q | streamPerPoint q => CutInTurn q.direction.TurnsTo (q.limit.map Int.toNat)
  | combined q | streamCombined q => CutOff q.direction.MeetsFirst (q.limit.map Int.toNat)
  | range .. => fun _ _ => False

/-- Whether a read that has handed over these rows has come to its end: a receiver gets all of them,
a stream must have been asked once more. -/
def Ended (read : Read) (calls : Nat) (rows : List Row) : Prop :=
  match read with
  | streamPerPoint _ | streamCombined _ => rows.length < calls
  | perPoint _ | combined _ | range .. => True

/-- Reads a store on which round 0 of the changes is made before the first row is asked for, and
round `n` after the `n`-th row.  A stream is opened before round 0, and asked up to `calls` times. -/
def run (db : Database Memory) (changes : Nat → List Memory.Change) (calls : Nat) (m : Memory) :
    Read → Delivery
  | perPoint q =>
    (db.perPoint q.points q.start q.stop q.limit q.direction (.ofChanges changes)
      (m.applyAll (changes 0))).1
  | combined q =>
    (db.combined q.points q.start q.stop q.limit q.direction (.ofChanges changes)
      (m.applyAll (changes 0))).1
  | range p start stop =>
    (db.rangeWith p start stop (.ofChanges changes) (m.applyAll (changes 0))).1
  | streamPerPoint q =>
    db.drive changes calls (db.streamPerPoint q.points q.start q.stop q.limit q.direction) m
  | streamCombined q =>
    db.drive changes calls (db.streamCombined q.points q.start q.stop q.limit q.direction) m

/-- What the rows of a read are worth, if the store held `contents n` after round `n`. -/
structure Steady (read : Read) (contents : Nat → Archive) (calls : Nat) (d : Delivery) : Prop where
  /-- The read fails only if its arguments are refused. -/
  answered : d.failure = none ∨
    ∃ e, checkArguments read.query.start read.query.stop read.query.limit = .error e ∧ d = .refused e
  ordered : d.rows.Pairwise read.Before
  /-- No place of a series is handed over twice. -/
  once : (d.rows.map fun r => (r.series, r.time)).Nodup
  inside : ∀ r ∈ d.rows, read.Asked r
  /-- A row was held as it is at some moment until it was handed over. -/
  stored : ∀ (n : Nat) r, d.rows[n]? = some r → ∃ k ≤ n, (contents k).Holds r
  /-- What was held all the time comes once, unless the limit cuts it off. -/
  complete : d.failure = none → read.Ended calls d.rows → ∀ r, read.Asked r →
    (∀ k ≤ d.rows.length, (contents k).Holds r) → d.rows.count r = 1 ∨ read.Cut d.rows r

variable {contents : Nat → Archive} {calls : Nat}

/-- A read that was refused has handed over nothing. -/
theorem Steady.refused {read : Read} {e : Failure}
    (h : checkArguments read.query.start read.query.stop read.query.limit = .error e) :
    read.Steady contents calls (.refused e) where
  answered := .inr ⟨e, h, rfl⟩
  ordered := .nil
  once := .nil
  inside := by simp [Delivery.refused]
  stored := by simp [Delivery.refused]
  complete hnone := by simp [Delivery.refused] at hnone

/-- Two rows of which one goes before the other are at different places. -/
theorem place_ne_of_before {read : Read} {x y : Row} (h : read.Before x y) :
    (x.series, x.time) ≠ (y.series, y.time) := by
  have hself : ∀ (d : Direction) (t : Timestamp), d.compareTimes t t ≠ .lt := fun d t hlt => by
    rw [Direction.compareTimes_eq_eq.2 rfl] at hlt
    cases hlt
  have hturn : ∀ d : Direction, d.TurnsTo x y → (x.series, x.time) ≠ (y.series, y.time) := by
    intro d h he
    obtain ⟨hseries, htime⟩ := Prod.mk.inj he
    have := Direction.compareTimes_of_turnsTo hseries h
    rw [htime] at this
    exact hself d _ this
  have hmeet : ∀ d : Direction, d.MeetsFirst x y → (x.series, x.time) ≠ (y.series, y.time) := by
    intro d h he
    obtain ⟨hseries, htime⟩ := Prod.mk.inj he
    have := Direction.compareTimes_of_compareRows hseries h
    rw [htime] at this
    exact hself d _ this
  cases read with
  | perPoint q => exact hturn _ h
  | combined q => exact hmeet _ h
  | range p start stop => exact hturn _ h
  | streamPerPoint q => exact hturn _ h
  | streamCombined q => exact hmeet _ h

theorem Steady.of_tracked {read : Read} {lost : List Row → Row → Prop} {rows : List Row} {w : Window}
    {limit : Option Nat}
    (hargs : checkArguments read.query.start read.query.stop read.query.limit = .ok (w, limit))
    (h : Tracked contents read.Before lost 0
      (fun r => r.series ∈ seriesOf read.query.points ∧ w.contains r.time = true) rows)
    (hlost : read.Ended calls rows → ∀ r, lost rows r → read.Cut rows r) :
    read.Steady contents calls ⟨rows, none⟩ := by
  obtain ⟨rfl, -⟩ := ok_of_checkArguments hargs
  have honce : (rows.map fun r => (r.series, r.time)).Nodup :=
    List.pairwise_map.2 (h.ordered.imp place_ne_of_before)
  refine ⟨.inl rfl, h.ordered, honce, fun r hr => ?_, fun n r hn => ?_, fun _ hended r hr hheld => ?_⟩
  · exact (h.inside r hr).imp_left SortedMap.mem_distinct.1
  · simpa using h.stored n r hn
  · have hasked := hr.imp_left SortedMap.mem_distinct.2
    rcases h.complete r hasked fun n hn => by simpa using hheld n hn with hmem | hgone
    · have hnodup : rows.Nodup := List.Pairwise.of_map _ (fun _ _ hne he => hne (he ▸ rfl)) honce
      exact .inl (hnodup.count.trans (if_pos hmem))
    · exact .inr (hlost hended r hgone)

/-- A read whose arguments are refused does nothing. -/
theorem run_of_error {db : Database Memory} {changes : Nat → List Memory.Change} {m : Memory}
    {read : Read} {e : Failure}
    (h : checkArguments read.query.start read.query.stop read.query.limit = .error e) :
    read.run db changes calls m = .refused e := by
  cases read with
  | perPoint q | combined q =>
    simp only [query] at h
    simp only [run, Database.perPoint, Database.combined, h, checked]
    rfl
  | streamPerPoint q | streamCombined q =>
    simp only [query] at h
    simp only [run, Database.streamPerPoint, Database.streamCombined, drive, openStream, h]
  | range p start stop =>
    have hwindow : Window.new (some start) (some stop) = .error e := by
      cases hnew : Window.new (some start) (some stop) with
      | error e' =>
        simp only [query, checkArguments, hnew] at h
        cases h
        rfl
      | ok w =>
        rw [query, checkArguments_eq_ok_iff.2 ⟨hnew, rfl⟩] at h
        cases h
    simp only [run, rangeWith, hwindow, checked]
    rfl

/-- A read whose arguments are accepted hands over what a sweep over its series hands over. -/
theorem run_tracked {db : Database Memory} (hdb : db.OverMemory) {m : Memory}
    (hscans : m.failingScans = 0) {read : Read} (changes : Nat → List Memory.Change) (calls : Nat)
    {w : Window} {limit : Option Nat}
    (hargs : checkArguments read.query.start read.query.stop read.query.limit = .ok (w, limit)) :
    ∃ rows lost, read.run db changes calls m = ⟨rows, none⟩ ∧
      Tracked (fun n => (m.evolve changes n).archive) read.Before lost 0
        (fun r => r.series ∈ seriesOf read.query.points ∧ w.contains r.time = true) rows ∧
      (read.Ended calls rows → ∀ r, lost rows r → read.Cut rows r) := by
  have hb : ∀ n, db.backend.ReadsFrom (m.evolve changes n).archive (Memory.After changes m n) :=
    hdb.readsFrom_after hscans
  have hreact : ∀ i r s, Memory.After changes m i s →
      Memory.After changes m (i + 1) (Reaction.ofChanges changes (i + 1) r s) :=
    fun _ _ _ hs => hs.next
  have hstart : Memory.After changes m 0 (m.applyAll (changes 0)) :=
    Memory.After.zero m.scans m.openLeases
  cases read with
  | perPoint q =>
    obtain ⟨rfl, rfl⟩ := ok_of_checkArguments hargs
    obtain ⟨rows, s, hdeliver, htracked⟩ :=
      drainInTurn_tracked hb hreact (pairwise_seriesOf q.points) _ _ q.direction hstart
    refine ⟨rows, _, ?_, htracked, fun _ r hgone => hgone⟩
    simp only [query] at hargs
    simp only [run, Database.perPoint, hargs, checked, drainInTurn]
    exact congrArg Prod.fst hdeliver
  | combined q =>
    obtain ⟨rfl, rfl⟩ := ok_of_checkArguments hargs
    obtain ⟨rows, s, hdeliver, htracked⟩ :=
      drainMerged_tracked hb hreact (SortedMap.nodup_distinct _) _ _ q.direction hstart
    refine ⟨rows, _, ?_, htracked, fun _ r hgone => hgone⟩
    simp only [query] at hargs
    simp only [run, Database.combined, hargs, checked]
    exact congrArg Prod.fst hdeliver
  | range p start stop =>
    obtain ⟨rows, s, hdeliver, -, htracked⟩ :=
      drain_tracked hb hreact p.series w none .ascending hstart
    have hwindow : Window.new (some start) (some stop) = .ok w := (checkArguments_eq_ok_iff.1 hargs).1
    refine ⟨rows, _, ?_, htracked.mono (fun r => ?_) fun _ _ h => h, fun _ r hgone => ?_⟩
    · simp only [run, rangeWith, hwindow, checked]
      exact congrArg Prod.fst hdeliver
    · simp [query, seriesOf, SortedMap.mem_distinct]
    · exact (not_cutOff_none hgone).elim
  | streamPerPoint q =>
    obtain ⟨rfl, rfl⟩ := ok_of_checkArguments hargs
    have hbody := StreamBody.inTurn_sweeps
      (openCursor_sweeps hb (q.limit.map Int.toNat) fun x r =>
        Direction.turnsTo_of_compareTimes (d := q.direction))
    obtain ⟨rows, hdrive, htracked⟩ := drive_tracked hdb hscans hbody
      (fun _ more _ h => h.append more) hargs .inTurn (fun _ => none)
      ⟨_, rfl, openCursors_turns db q.points⟩
      (fun r => (Outlook.within_ahead StreamBody.inTurn_injective _ r).trans
        (openCursors_ahead db q.points r))
      (fun _ _ hgone => (not_cutOff_none hgone).elim)
      (fun hzero r => hzero ▸ cutOff_zero _ r) calls
    exact ⟨rows, _, hdrive, htracked, fun hended r hgone => hgone.resolve_right (Nat.ne_of_lt hended)⟩
  | streamCombined q =>
    obtain ⟨rfl, rfl⟩ := ok_of_checkArguments hargs
    have hbody := StreamBody.merged_sweeps <| Merge.sweeps (q.limit.map Int.toNat)
      (openCursor_sweeps hb (q.limit.map Int.toNat) fun _ _ _ htimes =>
        Direction.compareRows_eq_lt.2 (.inl htimes))
      (own_disjoint (d := q.direction) (SortedMap.nodup_distinct (q.points.map Point.series)))
      fun _ _ hgone => hgone.imp fun _ hl => ⟨hl.1, hl.2.1⟩
    obtain ⟨rows, hdrive, htracked⟩ := drive_tracked hdb hscans hbody
      (fun _ more _ h => h.append more) hargs (fun cursors => .merged q.direction (.new cursors)) id
      ⟨_, rfl, newMerge_ok (openCursor_ok db _) (openCursor_ahead db _)⟩
      (fun r => (Outlook.within_ahead StreamBody.merged_injective _ r).trans
        (newMerge_ahead (openCursor_ahead db _)))
      (fun _ _ hgone => hgone) (fun hzero r => hzero ▸ cutOff_zero _ r) calls
    exact ⟨rows, _, hdrive, htracked, fun hended r hgone => hgone.resolve_right (Nat.ne_of_lt hended)⟩

/-- Reads of a store in memory are steady, whatever is done to the store between two rows. -/
theorem run_steady {db : Database Memory} (hdb : db.OverMemory) {m : Memory}
    (hscans : m.failingScans = 0) (read : Read) (changes : Nat → List Memory.Change) (calls : Nat) :
    read.Steady (fun n => (m.evolve changes n).archive) calls (read.run db changes calls m) := by
  cases hargs : checkArguments read.query.start read.query.stop read.query.limit with
  | error e =>
    rw [run_of_error hargs]
    exact .refused hargs
  | ok args =>
    obtain ⟨w, limit⟩ := args
    obtain ⟨rows, lost, hrun, htracked, hlost⟩ := run_tracked hdb hscans changes calls hargs
    rw [hrun]
    exact .of_tracked hargs htracked hlost

/-- After the first row one value is written behind the read, one ahead of it, and one that has been
fetched already is deleted. -/
theorem run_steady_changed_once :
    let sample (t : Timestamp) : Sample := ⟨t, .flag true, none⟩
    let m : Memory := { Memory.new with
      archive := Archive.empty.putAll [(1, sample 1), (1, sample 3), (2, sample 3), (2, sample 6)] }
    let db : Database Memory := ⟨Memory.backend, .all, 2, 1, by decide, by decide⟩
    let read : Read := .streamCombined ⟨[⟨8, 2⟩, ⟨7, 1⟩], none, none, none, .ascending⟩
    let changes (n : Nat) : List Memory.Change :=
      if n = 1 then
        [.insert 2 (sample 0), .insert 1 (sample 5), .deleteWithin 1 (.single 3)]
      else []
    ((read.run db changes 9 m).rows.map fun r => (r.series, r.time)) =
        [(1, 1), (1, 3), (2, 3), (1, 5), (2, 6)] ∧
      read.Steady (fun n => (m.evolve changes n).archive) 9 (read.run db changes 9 m) := by
  intro sample m db read changes
  have hdb : db.OverMemory := .inl rfl
  have hscans : m.failingScans = 0 := rfl
  exact ⟨by decide +kernel, run_steady hdb hscans read changes 9⟩

end Read

end Database

end Historian
