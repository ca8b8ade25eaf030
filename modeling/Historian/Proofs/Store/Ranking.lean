import Historian.Database.Changes
import Historian.Proofs.Store.Changes
import Historian.Proofs.Store.Stored
import Mathlib.Data.Set.Card

/-!
# The fullest series

A store ranks the series that it lists.  Removals differ in what they leave of a series that has lost
all its values: forgetting it takes it off the list, while taking values out one window at a time
leaves it there, to be ranked last with no value.

* `Archive.Ranks` — what a ranking is, said by look-ups alone, and `Archive.Ranks.unique`.
* `Archive.ranking_eq` — the ranking of a store, and after it the series that have been emptied.
* `Memory.Change.apply_tidy`, `Memory.applyAll_tidy` — the calls that never empty a series.
* `Database.topSeries_ranks_iff` — when a store answers with its ranking.
-/

set_option autoImplicit false

namespace Historian

namespace Archive

/-- The times that a series has a value at. -/
def timesOf (a : Archive) (s : SeriesId) : Set Timestamp := {t | (a.get? s t).isSome}

/-- Whether `x` ranks before `y`: by more values, or by as many and a smaller series. -/
def Precedes (x y : SeriesCount) : Prop :=
  y.count < x.count ∨ x.count = y.count ∧ x.series < y.series

instance (x y : SeriesCount) : Decidable (Precedes x y) :=
  inferInstanceAs (Decidable (_ ∨ _))

/-- The list names each series that has a value, with the number of them, the fullest first. -/
structure Ranks (a : Archive) (counts : List SeriesCount) : Prop where
  ordered : counts.Pairwise Precedes
  mem_iff : ∀ c, c ∈ counts ↔ 0 < c.count ∧ c.count = (a.timesOf c.series).ncard

/-- The series is listed although nothing is left of it. -/
def Emptied (a : Archive) (s : SeriesId) : Prop := ∃ h, a.histories.get? s = some h ∧ h.size = 0

theorem Precedes.asymm {x y : SeriesCount} (h : Precedes x y) (h' : Precedes y x) : False := by
  unfold Precedes at h h'
  rcases h with h | ⟨hsame, h⟩ <;> rcases h' with h' | ⟨hsame', h'⟩
  · omega
  · omega
  · omega
  · exact absurd (UInt64.lt_trans h h') (UInt64.lt_irrefl _)

theorem nodup_of_ordered {counts : List SeriesCount} (h : counts.Pairwise Precedes) :
    counts.Nodup :=
  h.imp fun hlt he => (he ▸ hlt).asymm (he ▸ hlt)

/-- An ordered list is determined by its members. -/
theorem eq_of_ordered {counts other : List SeriesCount} (h : counts.Pairwise Precedes)
    (hother : other.Pairwise Precedes) (hmem : ∀ c, c ∈ counts ↔ c ∈ other) : counts = other :=
  ((List.perm_ext_iff_of_nodup (nodup_of_ordered h) (nodup_of_ordered hother)).2 hmem).eq_of_pairwise
    (fun _ _ _ _ hxy hyx => (hxy.asymm hyx).elim) h hother

/-- There is one ranking. -/
theorem Ranks.unique {a : Archive} {counts other : List SeriesCount} (h : a.Ranks counts)
    (hother : a.Ranks other) : other = counts :=
  eq_of_ordered hother.ordered h.ordered fun c => (hother.mem_iff c).trans (h.mem_iff c).symm

/-! ## What a store ranks -/

/-- A listed series has as many times as entries. -/
theorem ncard_timesOf {a : Archive} {s : SeriesId} {h : History} (hget : a.histories.get? s = some h) :
    (a.timesOf s).ncard = h.size := by
  have htimes : a.timesOf s = (h.keys.toFinset : Set Timestamp) := by
    ext t
    simp [timesOf, get?, history, hget, SortedMap.mem_keys_iff]
  rw [htimes, Set.ncard_coe_finset, List.toFinset_card_of_nodup h.nodup_keys, SortedMap.keys,
    List.length_map]
  rfl

theorem mem_ranking {a : Archive} {c : SeriesCount} :
    c ∈ a.ranking ↔ ∃ h, a.histories.get? c.series = some h ∧ c.count = h.size := by
  rw [ranking, List.mem_mergeSort, List.mem_map]
  constructor
  · rintro ⟨e, he, rfl⟩
    exact ⟨e.2, SortedMap.mem_entries_iff.1 he, rfl⟩
  · rintro ⟨h, hget, hcount⟩
    exact ⟨(c.series, h), SortedMap.mem_entries_iff.2 hget, by rw [← hcount]⟩

/-- Among what is ranked with a value are all series that have one. -/
theorem mem_ranking_iff_of_pos {a : Archive} {c : SeriesCount} (hpos : 0 < c.count) :
    c ∈ a.ranking ↔ c.count = (a.timesOf c.series).ncard := by
  rw [mem_ranking]
  cases hget : a.histories.get? c.series with
  | none =>
    have hnone : a.timesOf c.series = ∅ := by
      ext t
      simp [timesOf, get?, history, hget]
    simp [hnone, hpos.ne']
  | some h => simp [ncard_timesOf hget]

theorem ranksBefore_iff {x y : SeriesCount} :
    ranksBefore x y = true ↔ y.count < x.count ∨ x.count = y.count ∧ x.series ≤ y.series := by
  simp [ranksBefore]

theorem ranking_ordered (a : Archive) : a.ranking.Pairwise Precedes := by
  have hsorted : a.ranking.Pairwise fun x y => ranksBefore x y = true := by
    refine List.pairwise_mergeSort (fun x y z hxy hyz => ?_) (fun x y => ?_) _
    · rw [ranksBefore_iff] at hxy hyz ⊢
      rcases hxy with hxy | ⟨hxy, hs⟩ <;> rcases hyz with hyz | ⟨hyz, hs'⟩
      · exact .inl (by omega)
      · exact .inl (by omega)
      · exact .inl (by omega)
      · exact .inr ⟨by omega, UInt64.le_trans hs hs'⟩
    · rw [Bool.or_eq_true, ranksBefore_iff, ranksBefore_iff]
      rcases lt_trichotomy x.count y.count with h | h | h
      · exact .inr (.inl h)
      · exact (UInt64.le_total x.series y.series).imp (fun hs => .inr ⟨h, hs⟩)
          fun hs => .inr ⟨h.symm, hs⟩
      · exact .inl (.inl h)
  -- no series is listed twice, so none ranks beside another
  have hdistinct : a.ranking.Pairwise fun x y => x.series ≠ y.series := by
    have hkeys : (a.histories.entries.map fun e => (⟨e.1, e.2.size⟩ : SeriesCount)).Pairwise
        fun x y => x.series ≠ y.series :=
      List.pairwise_map.2 (List.pairwise_map.1 a.histories.nodup_keys)
    exact hkeys.perm (List.mergeSort_perm _ _).symm fun h => h.symm
  refine hsorted.imp₂ (fun x y hle hne => ?_) hdistinct
  rcases ranksBefore_iff.1 hle with h | ⟨h, hs⟩
  · exact .inl h
  · exact .inr ⟨h, UInt64.lt_of_le_of_ne hs hne⟩

/-- However the counts are arranged, if they are ordered it is the ranking. -/
theorem ranking_eq_of_ordered {a : Archive} {counts : List SeriesCount} (h : counts.Pairwise Precedes)
    (hcounts : counts.Perm (a.histories.entries.map fun e => ⟨e.1, e.2.size⟩)) :
    a.ranking = counts :=
  eq_of_ordered a.ranking_ordered h fun _ => List.mem_mergeSort.trans hcounts.mem_iff.symm

/-- Series without a value come last in an ordered list. -/
theorem filter_append_filter {counts : List SeriesCount} (h : counts.Pairwise Precedes) :
    (counts.filter fun c => 0 < c.count) ++ (counts.filter fun c => c.count = 0) = counts := by
  induction counts with
  | nil => rfl
  | cons c rest ih =>
    obtain ⟨hfirst, hrest⟩ := List.pairwise_cons.1 h
    cases hcount : c.count with
    | succ n =>
      rw [List.filter_cons_of_pos (by simp [hcount]), List.filter_cons_of_neg (by simp [hcount]),
        List.cons_append, ih hrest]
    | zero =>
      have hzero : ∀ x ∈ rest, x.count = 0 := fun x hx => by
        rcases hfirst x hx with hlt | ⟨hsame, -⟩
        · omega
        · omega
      rw [List.filter_eq_nil_iff.2 (by simpa [hcount] using hzero),
        List.filter_eq_self.2 (by simpa [hcount] using hzero), List.nil_append]

/-- A store ranks what it holds, and after it the series that have been emptied. -/
theorem ranking_eq (a : Archive) :
    ∃ full emptied, a.ranking = full ++ emptied ∧ a.Ranks full ∧
      (emptied = [] ↔ ∀ s, ¬ a.Emptied s) := by
  refine ⟨a.ranking.filter fun c => 0 < c.count, a.ranking.filter fun c => c.count = 0,
    (filter_append_filter a.ranking_ordered).symm, ⟨a.ranking_ordered.filter _, fun c => ?_⟩, ?_⟩
  · rw [List.mem_filter, decide_eq_true_eq, and_comm]
    exact and_congr_right fun hpos => mem_ranking_iff_of_pos hpos
  · rw [List.filter_eq_nil_iff]
    constructor
    · rintro hnone s ⟨h, hget, hsize⟩
      exact hnone ⟨s, 0⟩ (mem_ranking.2 ⟨h, hget, hsize.symm⟩) (by simp)
    · intro htidy c hc hzero
      obtain ⟨h, hget, hcount⟩ := mem_ranking.1 hc
      exact htidy c.series ⟨h, hget, by simpa [hcount] using hzero⟩

end Archive

/-! ## Calls that empty no series -/

namespace Memory

open Archive

/-- Takes values out without forgetting their series. -/
def Change.TakesOut : Change → Prop
  | deleteWithin .. => True
  | deleteAllBefore _ => True
  | enforceRetention _ => True
  | _ => False

/-- What has just been written to is not empty. -/
theorem size_insert_ne_zero (h : History) (t : Timestamp) (e : Entry) : (h.insert t e).size ≠ 0 := by
  intro hsize
  have hwritten : (h.insert t e).get? t = some e := by
    rw [SortedMap.get?_insert]
    simp
  rw [SortedMap.get?, List.length_eq_zero_iff.1 hsize] at hwritten
  exact absurd hwritten (by simp [SortedMap.lookupIn])

theorem tidy_empty (s : SeriesId) : ¬ Archive.empty.Emptied s := by
  rintro ⟨h, hget, -⟩
  rw [Archive.empty, SortedMap.get?_empty] at hget
  exact absurd hget (by simp)

theorem tidy_put {a : Archive} (h : ∀ s, ¬ a.Emptied s) (series : SeriesId) (v : Sample) :
    ∀ s, ¬ (a.put series v).Emptied s := by
  rintro s ⟨history, hget, hsize⟩
  unfold Archive.put at hget
  rw [SortedMap.get?_insert] at hget
  split at hget
  · obtain rfl := Option.some.inj hget
    exact size_insert_ne_zero _ _ _ hsize
  · exact h s ⟨history, hget, hsize⟩

theorem tidy_putAll {a : Archive} (h : ∀ s, ¬ a.Emptied s) (batch : List (SeriesId × Sample)) :
    ∀ s, ¬ (a.putAll batch).Emptied s := by
  unfold Archive.putAll
  induction batch generalizing a with
  | nil => exact h
  | cons e rest ih => exact ih (tidy_put h e.1 e.2)

theorem tidy_keepOnly {a : Archive} (h : ∀ s, ¬ a.Emptied s) (live : List SeriesId) :
    ∀ s, ¬ (a.keepOnly live).Emptied s := by
  rintro s ⟨history, hget, hsize⟩
  unfold Archive.keepOnly at hget
  rw [SortedMap.get?_filter, Option.filter_eq_some_iff] at hget
  exact h s ⟨history, hget.1, hsize⟩

/-- One call. -/
theorem Change.apply_tidy {c : Change} (hc : ¬ c.TakesOut) {m : Memory}
    (h : ∀ s, ¬ m.archive.Emptied s) : ∀ s, ¬ (c.apply m).archive.Emptied s := by
  have hdelete : ∀ capability change, (∀ s, ¬ (change m.archive).Emptied s) →
      ∀ s, ¬ (delete capability change m).2.archive.Emptied s := by
    intro capability change hchange
    unfold delete
    cases m.capabilities.require capability with
    | error e => exact h
    | ok _ => exact hchange
  cases c with
  | insert series v =>
    simp only [Change.apply, backend, Memory.insert]
    split
    · exact tidy_put h series v
    · exact h
  | insertBatch batch =>
    simp only [Change.apply, backend, Memory.insertBatch]
    split
    · exact tidy_putAll h batch
    · exact h
  | deleteWithin series w => exact absurd trivial hc
  | deleteAllBefore t => exact absurd trivial hc
  | deleteAll => exact hdelete .deleteAll _ tidy_empty
  | deleteOrphaned live => exact hdelete .deleteOrphaned _ (tidy_keepOnly h live)
  | setRetention p =>
    simp only [Change.apply, backend]
    cases m.capabilities.require .retentionPolicy <;> exact h
  | enforceRetention now => exact absurd trivial hc

/-- A history of them. -/
theorem applyAll_tidy {changes : List Change} (hchanges : ∀ c ∈ changes, ¬ c.TakesOut) {m : Memory}
    (h : ∀ s, ¬ m.archive.Emptied s) : ∀ s, ¬ (m.applyAll changes).archive.Emptied s := by
  unfold applyAll
  induction changes generalizing m with
  | nil => exact h
  | cons c rest ih =>
    exact ih (fun c hc => hchanges c (List.mem_cons_of_mem _ hc))
      (c.apply_tidy (hchanges c List.mem_cons_self) h)

theorem applyAll_capabilities (changes : List Change) (m : Memory) :
    (m.applyAll changes).capabilities = m.capabilities := by
  unfold applyAll
  induction changes generalizing m with
  | nil => rfl
  | cons c rest ih => rw [List.foldl_cons, ih, Change.apply_capabilities]

end Memory

/-! ## The answer -/

namespace Database

open Archive

/-- Reading off the front of a list with more behind it. -/
theorem take_append_eq_iff {α : Type} (xs ys : List α) (n : Nat) :
    (xs ++ ys).take n = xs.take n ↔ n ≤ xs.length ∨ ys = [] := by
  rw [List.take_append, List.append_right_eq_self, List.take_eq_nil_iff,
    Nat.sub_eq_zero_iff_le]

theorem topSeries_eq {db : Database Memory} (hdb : db.backend = Memory.backend)
    (hdeclared : db.capabilities.supports .topSeries = true) {m : Memory}
    (hcaps : m.capabilities.supports .topSeries = true) (limit : Nat) :
    Memory.backend.topSeries limit m = (.ok (m.archive.ranking.take limit), m) ∧
      db.topSeries limit m = (.ok (m.archive.ranking.take limit), m) := by
  have hstore : m.capabilities.require .topSeries = .ok () := by
    rw [Capabilities.require, if_pos hcaps]
  have hrequire : db.require .topSeries = .ok () := by
    rw [require, if_pos hdeclared]
  constructor
  · simp only [Memory.backend, hstore]
  · simp only [topSeries, callWith, hrequire, call, hdb, Memory.backend, hstore]
    rfl

/-- A store answers with the ranking of what it holds as far as it goes, or if it lists no emptied
series.  It lists none as long as values are never taken out but with their series. -/
theorem topSeries_ranks_iff {db : Database Memory} (hdb : db.backend = Memory.backend)
    (hdeclared : db.capabilities.supports .topSeries = true) {start : Memory}
    (hstart : start.archive = .empty) (hcaps : start.capabilities.supports .topSeries = true)
    (changes : List Memory.Change) (limit : Nat) :
    let m := start.applyAll changes
    ∃ full counts, m.archive.Ranks full ∧ (∀ other, m.archive.Ranks other → other = full) ∧
      Memory.backend.topSeries limit m = (.ok counts, m) ∧
      db.topSeries limit m = (.ok counts, m) ∧
      (counts = full.take limit ↔ limit ≤ full.length ∨ ∀ s, ¬ m.archive.Emptied s) ∧
      ((∀ c ∈ changes, ¬ c.TakesOut) → counts = full.take limit) := by
  intro m
  obtain ⟨full, emptied, hranking, hranks, hemptied⟩ := m.archive.ranking_eq
  obtain ⟨hstore, hanswer⟩ := topSeries_eq hdb hdeclared
    (show m.capabilities.supports .topSeries = true by rw [Memory.applyAll_capabilities, hcaps]) limit
  have hiff : m.archive.ranking.take limit = full.take limit ↔
      limit ≤ full.length ∨ ∀ s, ¬ m.archive.Emptied s := by
    rw [hranking, take_append_eq_iff, hemptied]
  refine ⟨full, m.archive.ranking.take limit, hranks, fun other => hranks.unique, hstore, hanswer,
    hiff, fun hchanges => hiff.2 (.inr (Memory.applyAll_tidy hchanges ?_))⟩
  rw [hstart]
  exact Memory.tidy_empty

/-- Series 3 is written and forgotten, and of the others series 1 has more values. -/
theorem topSeries_ranks_iff_two_series :
    let db : Database Memory := ⟨Memory.backend, .all, 1, 1, by decide, by decide⟩
    let sample (t : Timestamp) : Sample := ⟨t, .flag true, none⟩
    let m := Memory.new.applyAll [.insert 2 (sample 5), .insertBatch [(3, sample 1), (1, sample 7)],
      .insert 1 (sample 9), .deleteOrphaned [1, 2]]
    db.topSeries 5 m = (.ok [⟨1, 2⟩, ⟨2, 1⟩], m) ∧
      ∃ full, m.archive.Ranks full ∧ [⟨1, 2⟩, ⟨2, 1⟩] = full.take 5 := by
  intro db sample m
  obtain ⟨full, counts, hranks, -, -, hanswer, -, hkept⟩ :=
    @topSeries_ranks_iff db rfl rfl Memory.new rfl rfl
      [.insert 2 (sample 5), .insertBatch [(3, sample 1), (1, sample 7)], .insert 1 (sample 9),
        .deleteOrphaned [1, 2]] 5
  have hranking : m.archive.ranking = [⟨1, 2⟩, ⟨2, 1⟩] :=
    ranking_eq_of_ordered (by decide) (by decide +kernel)
  obtain ⟨-, hanswer'⟩ := @topSeries_eq db rfl rfl m rfl 5
  rw [hranking] at hanswer'
  obtain rfl := Except.ok.inj (congrArg Prod.fst (hanswer.symm.trans hanswer'))
  exact ⟨hanswer, full, hranks, hkept (by simp [Memory.Change.TakesOut])⟩

/-- Of two stores that hold the same one value, the one where series 1 has been emptied by taking its
values out lists it among the fullest, and the one where it has been forgotten does not. -/
theorem topSeries_lists_emptied :
    let db : Database Memory := ⟨Memory.backend, .all, 1, 1, by decide, by decide⟩
    let sample : Sample := ⟨5, .flag true, none⟩
    let m := Memory.new.applyAll [.insert 1 sample, .insert 2 sample, .deleteWithin 1 ⟨none, none⟩]
    let forgotten := Memory.new.applyAll [.insert 1 sample, .insert 2 sample, .deleteOrphaned [2]]
    m.archive.stored = forgotten.archive.stored ∧
      db.topSeries 10 forgotten = (.ok [⟨2, 1⟩], forgotten) ∧
      db.topSeries 10 m = (.ok [⟨2, 1⟩, ⟨1, 0⟩], m) ∧
      ¬ ∃ full, m.archive.Ranks full ∧ db.topSeries 10 m = (.ok (full.take 10), m) := by
  intro db sample m forgotten
  have hforgotten : forgotten.archive.ranking = [⟨2, 1⟩] :=
    ranking_eq_of_ordered (by decide) (by decide +kernel)
  have hranking : m.archive.ranking = [⟨2, 1⟩, ⟨1, 0⟩] :=
    ranking_eq_of_ordered (by decide) (by decide +kernel)
  obtain ⟨-, hclean⟩ := @topSeries_eq db rfl rfl forgotten rfl 10
  obtain ⟨-, hanswer⟩ := @topSeries_eq db rfl rfl m rfl 10
  rw [hforgotten] at hclean
  rw [hranking] at hanswer
  refine ⟨by decide +kernel, hclean, hanswer, ?_⟩
  rintro ⟨full, hranks, hfull⟩
  have htake := Except.ok.inj (congrArg Prod.fst (hfull.symm.trans hanswer))
  have hmem : (⟨1, 0⟩ : SeriesCount) ∈ full.take 10 := by simp [htake]
  exact absurd ((hranks.mem_iff _).1 (List.mem_of_mem_take hmem)).1 (by decide)

end Database

end Historian
