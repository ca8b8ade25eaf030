import Historian.Memory

/-!
# Writing many samples

Samples of different series do not get in each other's way.

* `Archive.putAll_eq_of_filter_eq` — what many writes leave depends only on the order of the writes
  of each series.
* `Memory.Takes.archive_eq` — a store that takes batches holds the batches that it stored.
-/

set_option autoImplicit false

namespace Historian

namespace Archive

theorem putAll_append (a : Archive) (xs ys : List (SeriesId × Sample)) :
    a.putAll (xs ++ ys) = (a.putAll xs).putAll ys :=
  List.foldl_append

theorem get?_histories_put (a : Archive) (series s : SeriesId) (v : Sample) :
    (a.put series v).histories.get? s =
      if s = series then some ((a.history series).insert v.time ⟨v.payload, v.note⟩)
      else a.histories.get? s := by
  rw [put, SortedMap.get?_insert]
  simp only [Std.LawfulEqOrd.compare_eq_iff_eq]

/-- What is listed for a series depends only on the writes of that series. -/
theorem get?_histories_putAll {s : SeriesId} {xs : List (SeriesId × Sample)} :
    ∀ {a b : Archive}, a.histories.get? s = b.histories.get? s →
      (a.putAll xs).histories.get? s =
        (b.putAll (xs.filter fun e => e.1 = s)).histories.get? s := by
  induction xs with
  | nil => exact fun h => h
  | cons e rest ih =>
    intro a b h
    have hput : (a.putAll (e :: rest)) = (a.put e.1 e.2).putAll rest := rfl
    rw [hput]
    by_cases he : e.1 = s
    · rw [List.filter_cons_of_pos (by simpa using he)]
      refine ih ?_
      rw [get?_histories_put, get?_histories_put, if_pos he.symm, if_pos he.symm, history, history,
        he, h]
    · rw [List.filter_cons_of_neg (by simpa using he)]
      refine ih ?_
      rw [get?_histories_put, if_neg (Ne.symm he), h]

/-- Writes leave the same whatever their order, as long as those of each series keep theirs. -/
theorem putAll_eq_of_filter_eq {a : Archive} {xs ys : List (SeriesId × Sample)}
    (h : ∀ s, (xs.filter fun e => e.1 = s) = ys.filter fun e => e.1 = s) :
    a.putAll xs = a.putAll ys := by
  have : (a.putAll xs).histories = (a.putAll ys).histories := SortedMap.ext_get? fun s => by
    rw [get?_histories_putAll rfl, h s, ← get?_histories_putAll rfl]
  exact congrArg Archive.mk this

end Archive

namespace Memory

/-- The store takes the batches of a log one by one and answers as the log says: with an error
where a batch was not stored. -/
def Takes : Memory → List (List (SeriesId × Sample) × Bool) → Memory → Prop
  | m, [], m' => m' = m
  | m, (batch, stored) :: rest, m' =>
    (m.insertBatch batch).1.isOk = stored ∧ Takes (m.insertBatch batch).2 rest m'

/-- The store then holds the batches that it stored. -/
theorem Takes.archive_eq {log : List (List (SeriesId × Sample) × Bool)} :
    ∀ {m m' : Memory}, m.Takes log m' →
      m'.archive = m.archive.putAll (log.flatMap fun e => if e.2 then e.1 else []) := by
  induction log with
  | nil => rintro m m' rfl; rfl
  | cons e rest ih =>
    obtain ⟨batch, stored⟩ := e
    rintro m m' ⟨hstored, htakes⟩
    rw [ih htakes, List.flatMap_cons, Archive.putAll_append]
    by_cases hfailing : m.failingWrites = 0
    · simp only [insertBatch, hfailing, if_true] at hstored ⊢
      rw [← hstored]
      rfl
    · simp only [insertBatch, hfailing, if_false] at hstored ⊢
      rw [← hstored]
      rfl

end Memory

end Historian
