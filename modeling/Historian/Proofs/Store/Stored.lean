import Historian.Memory

/-!
# What a store holds and what is taken out of it

`Archive.stored` lists all that an archive holds, row by row.  Every removal leaves a filtered list,
and what it counts is the number of rows that the filter takes out.

* `Archive.mem_stored`, `Archive.nodup_stored` — the rows are those that are held, each of them once.
* `Archive.stored_remove`, `Archive.stored_removeEverywhere`, `Archive.stored_keepOnly` — removals.
* `Memory.delete_eq` — a declared removal succeeds and counts the rows that it takes out.
-/

set_option autoImplicit false

namespace Historian

namespace Archive

/-- The archive holds the row as it is. -/
def Holds (a : Archive) (r : Row) : Prop :=
  a.get? r.series r.time = some ⟨r.payload, r.note⟩

/-- All rows, by series and then time. -/
def stored (a : Archive) : List Row := a.histories.entries.flatMap fun e => e.2.rows e.1

theorem mem_history_rows {h : History} {s : SeriesId} {r : Row} :
    r ∈ h.rows s ↔ r.series = s ∧ h.get? r.time = some ⟨r.payload, r.note⟩ := by
  rw [History.rows, List.mem_map]
  constructor
  · rintro ⟨⟨t, e⟩, he, rfl⟩
    exact ⟨rfl, SortedMap.mem_entries_iff.1 he⟩
  · rintro ⟨rfl, hget⟩
    exact ⟨(r.time, ⟨r.payload, r.note⟩), SortedMap.mem_entries_iff.2 hget, rfl⟩

theorem mem_stored {a : Archive} {r : Row} : r ∈ a.stored ↔ a.Holds r := by
  rw [stored, List.mem_flatMap, Holds, get?, history]
  constructor
  · rintro ⟨⟨s, h⟩, he, hr⟩
    obtain ⟨rfl, hget⟩ := mem_history_rows.1 hr
    rw [SortedMap.mem_entries_iff.1 he]
    exact hget
  · intro hget
    cases hfound : a.histories.get? r.series with
    | none => simp [hfound] at hget
    | some h =>
      rw [hfound] at hget
      exact ⟨(r.series, h), SortedMap.mem_entries_iff.2 hfound, mem_history_rows.2 ⟨rfl, hget⟩⟩

theorem nodup_stored (a : Archive) : a.stored.Nodup := by
  rw [stored, List.Nodup, List.pairwise_flatMap]
  constructor
  · rintro ⟨s, h⟩ -
    refine List.pairwise_map.2 (h.ascending.imp fun {x y} hlt he => ?_)
    rw [Row.mk.injEq] at he
    simp [he.2.1] at hlt
  · refine a.histories.ascending.imp fun {x y} hlt r hr q hq he => ?_
    rw [← (mem_history_rows.1 hr).1, ← (mem_history_rows.1 hq).1, he] at hlt
    simp at hlt

/-- The entries are as many as the rows. -/
theorem count_eq_length_stored (a : Archive) : a.count = a.stored.length := by
  rw [count, stored, List.length_flatMap, SortedMap.values, List.map_map, List.sum]
  congr 1
  refine List.map_congr_left fun e _ => ?_
  rw [History.rows, List.length_map]
  rfl

theorem series_of_mem_rows {h : History} {s : SeriesId} {r : Row} (hr : r ∈ h.rows s) :
    r.series = s := (mem_history_rows.1 hr).1

/-- The entries of a history that are kept are the rows that are kept. -/
theorem rows_outside (h : History) (s : SeriesId) (w : Window) :
    (h.outside w).rows s = (h.rows s).filter fun r => !w.contains r.time := by
  rw [History.rows, History.outside, SortedMap.entries_filter, History.rows, List.filter_map]
  rfl

/-- Taking rows out of every history takes them out of the whole. -/
theorem stored_mapValues {a : Archive} {change : SeriesId → History → History} {keep : Row → Bool}
    (h : ∀ s (h : History), (change s h).rows s = (h.rows s).filter keep) :
    (Archive.mk (a.histories.mapValues change)).stored = a.stored.filter keep := by
  unfold stored SortedMap.mapValues
  rw [List.filter_flatMap, List.flatMap_map]
  exact congrArg (fun f => a.histories.entries.flatMap f) (funext fun e => h e.1 e.2)

theorem stored_remove (a : Archive) (s : SeriesId) (w : Window) :
    (a.remove s w).stored = a.stored.filter fun r => !(r.series == s && w.contains r.time) := by
  refine stored_mapValues fun s' h => ?_
  by_cases hs : s' = s
  · rw [if_pos hs, rows_outside]
    refine List.filter_congr fun r hr => ?_
    simp [series_of_mem_rows hr, hs]
  · rw [if_neg hs]
    refine (List.filter_eq_self.2 fun r hr => ?_).symm
    simp [series_of_mem_rows hr, hs]

theorem stored_removeEverywhere (a : Archive) (w : Window) :
    (a.removeEverywhere w).stored = a.stored.filter fun r => !w.contains r.time :=
  stored_mapValues fun s h => rows_outside h s w

theorem stored_keepOnly (a : Archive) (live : List SeriesId) :
    (a.keepOnly live).stored = a.stored.filter fun r => live.contains r.series := by
  unfold stored keepOnly
  rw [SortedMap.entries_filter]
  induction a.histories.entries with
  | nil => rfl
  | cons e rest ih =>
    have hrows : (e.2.rows e.1).filter (fun r => live.contains r.series) =
        if live.contains e.1 then e.2.rows e.1 else [] := by
      split
      · exact List.filter_eq_self.2 fun r hr => by rwa [series_of_mem_rows hr]
      · exact List.filter_eq_nil_iff.2 fun r hr => by rwa [series_of_mem_rows hr]
    rw [List.flatMap_cons, List.filter_append, hrows, ← ih, List.filter_cons]
    split <;> simp

end Archive

namespace Memory

/-- A removal that is declared succeeds, and counts the rows that it takes out. -/
theorem delete_eq {m : Memory} {c : Capability} (hc : m.capabilities.supports c = true)
    (change : Archive → Archive) (gone : Row → Bool)
    (h : (change m.archive).stored = m.archive.stored.filter fun r => !gone r) :
    delete c change m =
      (.ok (some (m.archive.stored.countP gone)), { m with archive := change m.archive }) := by
  have hrequire : m.capabilities.require c = .ok () := by
    rw [Capabilities.require, if_pos hc]
  have hcount : m.archive.count - (change m.archive).count = m.archive.stored.countP gone := by
    rw [Archive.count_eq_length_stored, Archive.count_eq_length_stored, h,
      ← List.countP_eq_length_filter, List.length_eq_countP_add_countP gone]
    have : (m.archive.stored.countP fun r => !gone r) =
        m.archive.stored.countP fun r => decide ¬ gone r = true := by
      simp
    omega
  simp only [delete, hrequire, hcount]

end Memory

end Historian
