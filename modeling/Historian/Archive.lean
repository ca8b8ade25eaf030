import Historian.SortedMap
import Historian.Window

/-!
# Stored histories

An `Archive` is what a store holds: for each series a `History`, which has at most one entry for
each time.  A series whose entries have all been removed is still listed until it is forgotten.

* `Archive.get?` is the view of an archive as a map from series and time to entries.
* `Archive.put` writes, in place of what was there; `Archive.remove` takes out a window of one series.
* `Archive.rows` is what a read of one series finds.
-/

set_option autoImplicit false

namespace Historian

/-- What is stored for one time. -/
structure Entry where
  payload : Payload
  note : Option String
  deriving DecidableEq

/-- The entries of one series, by time. -/
abbrev History := SortedMap Timestamp Entry

namespace History

/-- The entries inside a window. -/
def inside (h : History) (w : Window) : History := h.filter fun t _ => w.contains t

/-- The entries outside a window. -/
def outside (h : History) (w : Window) : History := h.filter fun t _ => !w.contains t

/-- The entries as rows of `series`, oldest first. -/
def rows (h : History) (series : SeriesId) : List Row :=
  h.entries.map fun e => ⟨series, e.1, e.2.payload, e.2.note⟩

end History

/-- How many values a series holds. -/
structure SeriesCount where
  series : SeriesId
  count : Nat
  deriving DecidableEq

/-- The histories of a store, by series. -/
structure Archive where
  histories : SortedMap SeriesId History

namespace Archive

/-- Nothing stored. -/
def empty : Archive := ⟨.empty⟩

/-- The history of a series; a series that is not listed has none. -/
def history (a : Archive) (series : SeriesId) : History := (a.histories.get? series).getD .empty

/-- The entry of a series at a time. -/
def get? (a : Archive) (series : SeriesId) (t : Timestamp) : Option Entry := (a.history series).get? t

/-- The number of entries of one series. -/
def countOf (a : Archive) (series : SeriesId) : Nat := (a.history series).size

/-- The number of entries. -/
def count (a : Archive) : Nat := (a.histories.values.map SortedMap.size).foldr (· + ·) 0

/-- Stores a sample in place of what the series held at that time. -/
def put (a : Archive) (series : SeriesId) (s : Sample) : Archive :=
  ⟨a.histories.insert series ((a.history series).insert s.time ⟨s.payload, s.note⟩)⟩

/-- Stores samples one by one. -/
def putAll (a : Archive) (batch : List (SeriesId × Sample)) : Archive :=
  batch.foldl (fun a e => a.put e.1 e.2) a

/-- Takes out what a window of one series holds. -/
def remove (a : Archive) (series : SeriesId) (w : Window) : Archive :=
  ⟨a.histories.mapValues fun s h => if s = series then h.outside w else h⟩

/-- Takes out what a window of every series holds. -/
def removeEverywhere (a : Archive) (w : Window) : Archive :=
  ⟨a.histories.mapValues fun _ h => h.outside w⟩

/-- Forgets every series that is not in `live`. -/
def keepOnly (a : Archive) (live : List SeriesId) : Archive :=
  ⟨a.histories.filter fun s _ => live.contains s⟩

/-- What a window of one series holds, in the given direction. -/
def rows (a : Archive) (series : SeriesId) (w : Window) (d : Direction) : List Row :=
  d.arrange (((a.history series).inside w).rows series)

/-- Whether `x` comes before `y` in a ranking: more values first, then the smaller series. -/
def ranksBefore (x y : SeriesCount) : Bool := y.count < x.count || (x.count == y.count && x.series ≤ y.series)

/-- Every listed series with its number of values, the fullest first. -/
def ranking (a : Archive) : List SeriesCount :=
  (a.histories.entries.map fun e => ⟨e.1, e.2.size⟩).mergeSort ranksBefore

@[simp] theorem history_empty (series : SeriesId) : empty.history series = .empty := rfl

/-- A stored sample is found at its own place, and every other place is as before. -/
theorem get?_put (a : Archive) (series series' : SeriesId) (s : Sample) (t : Timestamp) :
    (a.put series s).get? series' t =
      if series' = series ∧ t = s.time then some ⟨s.payload, s.note⟩ else a.get? series' t := by
  unfold get? history put
  rw [SortedMap.get?_insert]
  by_cases hs : series' = series
  · subst hs
    simp only [Std.LawfulEqOrd.compare_eq_iff_eq, if_true, Option.getD_some, true_and]
    rw [SortedMap.get?_insert]
    simp only [Std.LawfulEqOrd.compare_eq_iff_eq]
    rfl
  · simp [hs]

end Archive

end Historian
