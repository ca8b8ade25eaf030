import Historian.Database.Streams
import Historian.Proofs.Read.Merging

/-!
# Combined reads

A combined read hands over the first rows of the answer of the archive, whatever the sizes of the
chunks in which it reads and whether it is driven by a receiver or by its user.

* `Archive.answers_of_merges` — the rows of distinct series merge to the answer of the archive.
* `Database.drainMerged_spec` — a receiver gets the first rows that the series merge to.
* `Database.streamCombined_spec` — so does the user of a stream, although each of its sources stops
  at the limit by itself.
* `Database.combined_eq_firstOf_answer` — both for the store in memory, capped or not.
-/

set_option autoImplicit false

namespace Historian

namespace Archive

variable {a : Archive} {w : Window} {d : Direction}

/-- The answer depends on which series are asked for, not on their order or number. -/
theorem Answers.congr {series others : List SeriesId} {rows : List Row}
    (h : a.Answers series w d rows) (hsame : ∀ s, s ∈ series ↔ s ∈ others) :
    a.Answers others w d rows where
  ordered := h.ordered
  mem_iff r := by rw [h.mem_iff, hsame]

theorem isLE_rows (s : SeriesId) :
    (a.rows s w d).Pairwise fun x y => (d.compareRows x y).isLE = true :=
  (pairwise_rows a s w d).imp fun h => by
    rw [Direction.compareRows_eq_lt.2 (.inl h)]
    rfl

theorem nodup_rows (s : SeriesId) : (a.rows s w d).Nodup :=
  (pairwise_rows a s w d).imp fun {x _} h he => by
    have hself : d.compareTimes x.time x.time = .eq := Direction.compareTimes_eq_eq.2 rfl
    simp [← he, hself] at h

/-- The rows of distinct series merge to the answer of the archive. -/
theorem answers_of_merges {series : List SeriesId} (hseries : series.Nodup) {out : List Row}
    (h : Merges d.compareRows (series.map fun s => a.rows s w d) out) :
    a.Answers series w d out := by
  have hmem : ∀ r, r ∈ out ↔ r.series ∈ series ∧ w.contains r.time = true ∧
      a.get? r.series r.time = some ⟨r.payload, r.note⟩ := by
    intro r
    rw [h.perm.mem_iff, ← List.flatMap_def, List.mem_flatMap]
    constructor
    · rintro ⟨s, hs, hr⟩
      obtain ⟨rfl, hw, hget⟩ := mem_rows.1 hr
      exact ⟨hs, hw, hget⟩
    · rintro ⟨hs, hw, hget⟩
      exact ⟨r.series, hs, mem_rows.2 ⟨rfl, hw, hget⟩⟩
  have hnodup : out.Nodup := by
    rw [h.perm.nodup_iff, ← List.flatMap_def, List.Nodup, List.pairwise_flatMap]
    refine ⟨fun s _ => nodup_rows s, hseries.imp fun hne x hx y hy he => hne ?_⟩
    rw [← (mem_rows.1 hx).1, ← (mem_rows.1 hy).1, he]
  have hsorted := h.pairwise fun l hl => by
    obtain ⟨s, -, rfl⟩ := List.mem_map.1 hl
    exact isLE_rows s
  refine ⟨?_, hmem⟩
  refine (hsorted.and hnodup).imp_of_mem fun {x y} hx hy ⟨hle, hne⟩ => ?_
  cases hcmp : d.compareRows x y with
  | lt => rfl
  | gt => simp [hcmp] at hle
  | eq =>
    -- the archive has one entry for the time and the series that the two rows share
    obtain ⟨htime, hids⟩ := Direction.compareRows_eq_eq.1 hcmp
    have hentry := ((hmem x).1 hx).2.2
    rw [hids, htime, ((hmem y).1 hy).2.2] at hentry
    obtain ⟨sx, tx, px, nx⟩ := x
    obtain ⟨sy, ty, py, ny⟩ := y
    simp_all

theorem length_le_of_merges {series : List SeriesId} {out : List Row}
    (h : Merges d.compareRows (series.map fun s => a.rows s w d) out) :
    out.length ≤ series.length * w.width := by
  rw [h.perm.length_eq, List.length_flatten, List.map_map]
  clear h
  induction series with
  | nil => simp
  | cons s rest ih =>
    have := length_rows_le a s w d
    rw [List.map_cons, List.sum_cons, List.length_cons, Nat.succ_mul, Nat.add_comm]
    exact Nat.add_le_add ih this

/-- An archive has an answer to every read: what its series merge to. -/
theorem exists_answer (a : Archive) (points : List Point) (w : Window) (d : Direction) :
    ∃ rows, a.Answers (points.map Point.series) w d rows ∧
      Merges d.compareRows ((Database.seriesOf points).map fun s => a.rows s w d) rows := by
  obtain ⟨rows, hrows⟩ := Merges.exists_out d.compareRows
    ((Database.seriesOf points).map fun s => a.rows s w d)
  exact ⟨rows, (answers_of_merges (SortedMap.nodup_distinct _) hrows).congr fun s =>
    SortedMap.mem_distinct, hrows⟩

end Archive

namespace Database

variable {σ : Type} {db : Database σ} {a : Archive} {Intact : σ → Prop}

theorem pairwise_seriesOf (points : List Point) : (seriesOf points).Pairwise (· < ·) :=
  (SortedMap.pairwise_distinct _).imp Std.compare_eq_lt.1

theorem limitedChunk_pos (db : Database σ) (limit : Option Nat) : 0 < db.limitedChunk limit := by
  have := db.chunkSize_pos
  cases limit with
  | none => exact this
  | some l =>
    rw [limitedChunk]
    omega

theorem combinedChunk_pos (db : Database σ) (limit : Option Nat) (points : Nat) :
    0 < db.combinedChunk limit points := by
  have := db.chunkSize_pos
  have := db.minCombinedChunk_pos
  unfold combinedChunk
  split
  · split <;> omega
  · assumption

/-- Asking as often as the budget says brings all that the limit allows. -/
theorem take_budget {xs : List Row} {limit : Option Nat} {times : Nat} (h : xs.length ≤ times) :
    xs.take (budget limit times) = firstOf limit xs := by
  cases limit with
  | none => exact List.take_of_length_le (Nat.le_succ_of_le h)
  | some l => rfl

/-- The merge of cursors on a window gives what the series merge to. -/
theorem newMerge_yields (hb : db.backend.ReadsFrom a Intact) {series : List SeriesId} {w : Window}
    {chunk : Nat} (hchunk : 0 < chunk) {d : Direction} {out : List Row}
    (hout : Merges d.compareRows (series.map fun s => a.rows s w d) out) :
    Yields (Merge.next d.compareRows (Cursor.next db.backend)) Intact
      (Merge.new (series.map fun s => Cursor.onWindow s w chunk d)) out := by
  have hsource : ∀ (j : Nat) c l,
      (series.map fun s => Cursor.onWindow s w chunk d)[j]? = some c →
      (series.map fun s => a.rows s w d)[j]? = some l → Yields (Cursor.next db.backend) Intact c l := by
    intro j c l hc hl
    rw [List.getElem?_map, Option.map_eq_some_iff] at hc hl
    obtain ⟨s, hs, rfl⟩ := hc
    obtain ⟨s', hs', rfl⟩ := hl
    obtain rfl : s = s' := by simpa [hs] using hs'
    exact Cursor.onWindow_yields hb s w hchunk d
  exact Merge.new_yields (by simp) hsource hout

/-- A receiver gets the first rows that the series merge to. -/
theorem drainMerged_spec (hb : db.backend.ReadsFrom a Intact) {series : List SeriesId} {w : Window}
    (limit : Option Nat) {d : Direction} {react : Reaction σ}
    (hreact : ∀ n r s, Intact s → Intact (react n r s)) {out : List Row}
    (hout : Merges d.compareRows (series.map fun s => a.rows s w d) out) {s : σ} (hs : Intact s) :
    (db.drainMerged series w limit d react s).1 = ⟨firstOf limit out, none⟩ := by
  have hmerge := newMerge_yields hb (db.combinedChunk_pos limit series.length) hout
  rw [drainMerged, (deliverRows_of_yields hreact 0 hmerge hs).1,
    take_budget (Archive.length_le_of_merges hout)]

/-- A combined read leaves the store intact if its receiver does. -/
theorem drainMerged_intact (hb : db.backend.ReadsFrom a Intact) (series : List SeriesId) (w : Window)
    (limit : Option Nat) (d : Direction) {react : Reaction σ}
    (hreact : ∀ n r s, Intact s → Intact (react n r s)) {s : σ} (hs : Intact s) :
    Intact (db.drainMerged series w limit d react s).2 := by
  obtain ⟨out, hout⟩ := Merges.exists_out d.compareRows (series.map fun s => a.rows s w d)
  have hmerge := newMerge_yields hb (db.combinedChunk_pos limit series.length) hout
  exact (deliverRows_of_yields hreact 0 hmerge hs).2

/-- The user of a stream gets the same rows: of a source that stops at the limit by itself nothing
is missed, for at most that many of its rows are among the first ones of all. -/
theorem streamCombined_spec (hb : db.backend.ReadsFrom a Intact) {points : List Point}
    {start stop : Option Timestamp} {limit : Option Int} {w : Window} {l : Option Nat}
    (hargs : checkArguments start stop limit = .ok (w, l)) {d : Direction} {out : List Row}
    (hout : Merges d.compareRows ((seriesOf points).map fun s => a.rows s w d) out) {s : σ}
    (hs : Intact s) :
    ∃ t, (db.streamCombined points start stop limit d s).1 = .ok t ∧ ∀ n,
      (t.take db.backend n (db.streamCombined points start stop limit d s).2).1.1 =
        ((firstOf l out).take n).map .ok := by
  by_cases hzero : l = some 0
  · refine ⟨.empty, by simp [streamCombined, openStream, hargs, hzero], fun n => ?_⟩
    cases n with
    | zero => simp [Stream.take]
    | succ n => simp [hzero, Stream.take, Stream.next, Stream.empty, Stream.close]
  · obtain ⟨lease, hlease, hs'⟩ := hb.openLease s hs
    rcases hopen : db.backend.openLease s with ⟨answer, s'⟩
    rw [hopen] at hlease hs'
    obtain rfl : answer = .ok lease := hlease
    simp only [streamCombined, openStream, hargs, hzero, if_false, hopen]
    refine ⟨_, rfl, fun n => ?_⟩
    obtain ⟨short, hshort⟩ := Merges.exists_out d.compareRows
      ((seriesOf points).map fun s => firstOf l (a.rows s w d))
    have hsource : ∀ (j : Nat) c xs,
        ((seriesOf points).map fun s =>
          (⟨Cursor.onWindow s w (db.limitedChunk l) d, l⟩ : LimitedCursor))[j]? = some c →
        ((seriesOf points).map fun s => firstOf l (a.rows s w d))[j]? = some xs →
        Yields (LimitedCursor.next db.backend) Intact c xs := by
      intro j c xs hc hxs
      rw [List.getElem?_map, Option.map_eq_some_iff] at hc hxs
      obtain ⟨s, hs, rfl⟩ := hc
      obtain ⟨s', hs', rfl⟩ := hxs
      obtain rfl : s = s' := by simpa [hs] using hs'
      exact LimitedCursor.yields (Cursor.onWindow_yields hb s w (db.limitedChunk_pos l) d)
    have hbody := StreamBody.merged_yields (Merge.new_yields (by simp) hsource hshort)
    have hsame : firstOf l short = firstOf l out := by
      cases l with
      | none => exact hshort.unique hout
      | some l =>
        refine Merges.take_eq l hshort hout fun i => ?_
        rw [List.getElem?_map, List.getElem?_map, Option.map_map, Option.map_map]
        exact congrArg (Option.map · _) (funext fun s => by simp [firstOf, List.take_take])
    rw [← hsame]
    exact (Stream.take_of_yields hb _ _ hbody hs').1

/-! ## The store in memory -/

/-- The databases over a store in memory: it answers scans in full, or brings at most `k` rows of a
series at once. -/
def OverMemory (db : Database Memory) : Prop :=
  db.backend = Memory.backend ∨
    ∃ k, 0 < k ∧ db.backend = Memory.backend.mandatoryOnly (some k) none

theorem OverMemory.readsFrom {db : Database Memory} (h : db.OverMemory) (a : Archive) :
    db.backend.ReadsFrom a (Memory.Intact a) := by
  rcases h with h | ⟨k, hk, h⟩
  · exact h ▸ Memory.readsFrom a
  · exact h ▸ Memory.readsFrom_mandatoryOnly a hk

/-- A limit that is not negative is accepted. -/
theorem checkLimit_eq_ok (limit : Option Nat) : checkLimit (limit.map Int.ofNat) = .ok limit := by
  cases limit with
  | none => rfl
  | some l =>
    have : ¬ Int.ofNat l < 0 := by simp
    rw [Option.map_some, checkLimit, if_neg this]
    rfl

theorem ends_of_le {start stop : Timestamp} (h : start ≤ stop) :
    ∀ f t, some start = some f → some stop = some t → f ≤ t := by
  rintro f t hf ht
  obtain rfl := Option.some.inj hf
  obtain rfl := Option.some.inj ht
  exact h

/-- A window whose ends are in order and a limit that is not negative are accepted. -/
theorem checkArguments_eq_ok {start stop : Option Timestamp}
    (hends : ∀ f t, start = some f → stop = some t → f ≤ t) (limit : Option Nat) :
    checkArguments start stop (limit.map Int.ofNat) = .ok (⟨start, stop⟩, limit) := by
  simp only [checkArguments, Window.new_eq_ok hends, checkLimit_eq_ok]
  rfl

/-- Combined reads hand over the first rows of the answer of the archive: for every content of the
store, all points, ends, limits and directions and all sizes of chunks, the receiver of a combined
read and the user of a combined stream get the same rows, and then the read has ended. -/
theorem combined_eq_firstOf_answer {db : Database Memory} (hdb : db.OverMemory) {m : Memory}
    (hscans : m.failingScans = 0) (points : List Point) {start stop : Option Timestamp}
    (hends : ∀ f t, start = some f → stop = some t → f ≤ t) (limit : Option Nat) (d : Direction) :
    ∃ rows, m.archive.Answers (points.map Point.series) ⟨start, stop⟩ d rows ∧
      (db.combined points start stop (limit.map Int.ofNat) d .none m).1 =
        ⟨firstOf limit rows, none⟩ ∧
      ∃ t, (db.streamCombined points start stop (limit.map Int.ofNat) d m).1 = .ok t ∧
        ∀ n, (t.take db.backend n
          (db.streamCombined points start stop (limit.map Int.ofNat) d m).2).1.1 =
            ((firstOf limit rows).take n).map .ok := by
  have hargs := checkArguments_eq_ok hends limit
  have hb := hdb.readsFrom m.archive
  have hintact : Memory.Intact m.archive m := ⟨hscans, rfl⟩
  obtain ⟨rows, hanswers, hrows⟩ := m.archive.exists_answer points ⟨start, stop⟩ d
  refine ⟨rows, hanswers, ?_, streamCombined_spec hb hargs hrows hintact⟩
  simp only [combined, hargs, checked]
  exact drainMerged_spec hb _ Reaction.none_intact hrows hintact

/-- Two series that share a time, one of them asked for twice, from a store that brings one row at a
time. -/
theorem combined_eq_firstOf_answer_shared_time :
    let sample (t : Timestamp) : Sample := ⟨t, .flag true, some "shared"⟩
    let m : Memory := { Memory.new with
      archive := Archive.empty.putAll [(2, sample 5), (1, sample 9), (1, sample 5), (1, sample 7)] }
    let db : Database Memory :=
      ⟨Memory.backend.mandatoryOnly (some 1) none, .all, 3, 1, by decide, by decide⟩
    let points : List Point := [⟨7, 2⟩, ⟨8, 1⟩, ⟨9, 2⟩]
    ∃ rows, m.archive.Answers [2, 1, 2] ⟨some 5, some 9⟩ .descending rows ∧
      (db.combined points (some 5) (some 9) (some 2) .descending .none m).1 =
        ⟨rows.take 2, none⟩ ∧
      ∃ t, (db.streamCombined points (some 5) (some 9) (some 2) .descending m).1 = .ok t ∧
        ∀ n, (t.take db.backend n
          (db.streamCombined points (some 5) (some 9) (some 2) .descending m).2).1.1 =
            ((rows.take 2).take n).map .ok := by
  intro sample m db points
  have hdb : db.OverMemory := .inr ⟨1, by decide, rfl⟩
  have hscans : m.failingScans = 0 := rfl
  have hends : ∀ f t : Timestamp, some 5 = some f → some 9 = some t → f ≤ t := by
    rintro f t hf ht
    obtain rfl : (5 : Timestamp) = f := Option.some.inj hf
    obtain rfl : (9 : Timestamp) = t := Option.some.inj ht
    decide
  exact combined_eq_firstOf_answer hdb hscans points hends (some 2) .descending

end Database

end Historian
