import Historian.Memory

/-!
# Rows of an archive

What a window of one series holds, seen through `Archive.get?`, and how it shrinks when the window
is moved past a row.

* `Archive.mem_rows`, `Archive.pairwise_rows` — the rows of a window are its entries, in order.
* `Archive.rows_eq_filter` — a narrower window holds a filtered list.
* `Archive.rows_after_ascending`, `Archive.rows_after_descending` — moved past the last of its first
  `k` rows, a window holds the others.
* `Archive.Answers` — a list is the answer of an archive to a combined read; `Answers.unique`: there
  is only one such list.
-/

set_option autoImplicit false

namespace Historian

/-! ## Comparisons -/

namespace Direction

instance (d : Direction) : Std.TransCmp d.compareTimes := by
  cases d
  · exact inferInstanceAs (Std.TransCmp (compare : Timestamp → Timestamp → Ordering))
  · exact inferInstanceAs (Std.TransCmp fun a b : Timestamp => compare b a)

theorem compareTimes_eq_eq {d : Direction} {a b : Timestamp} :
    d.compareTimes a b = .eq ↔ a = b := by
  cases d with
  | ascending => exact Std.LawfulEqOrd.compare_eq_iff_eq
  | descending => exact Std.LawfulEqOrd.compare_eq_iff_eq.trans eq_comm

instance (d : Direction) : Std.TransCmp fun x y : Row => d.compareTimes x.time y.time where
  eq_swap {x y} :=
    have h : d.compareTimes x.time y.time = (d.compareTimes y.time x.time).swap :=
      Std.OrientedCmp.eq_swap
    h
  isLE_trans {x _ z} hxy hyz :=
    have h : (d.compareTimes x.time z.time).isLE = true := Std.TransCmp.isLE_trans hxy hyz
    h

instance (d : Direction) : Std.TransCmp d.compareRows :=
  inferInstanceAs
    (Std.TransCmp (compareLex (fun x y : Row => d.compareTimes x.time y.time) (compareOn Row.series)))

theorem compareRows_eq_lt {d : Direction} {x y : Row} :
    d.compareRows x y = .lt ↔
      d.compareTimes x.time y.time = .lt ∨ x.time = y.time ∧ x.series < y.series := by
  rw [compareRows, comparePlaces, Ordering.then_eq_lt, compareTimes_eq_eq, Std.compare_eq_lt]

theorem compareRows_eq_eq {d : Direction} {x y : Row} :
    d.compareRows x y = .eq ↔ x.time = y.time ∧ x.series = y.series := by
  rw [compareRows, comparePlaces, Ordering.then_eq_eq, compareTimes_eq_eq,
    Std.LawfulEqOrd.compare_eq_iff_eq]

end Direction

/-- Of a list in strict order, the elements after the last of its first `k` are the others. -/
theorem filter_after_getLast {α : Type} {cmp : α → α → Ordering} [Std.TransCmp cmp] {l : List α}
    (h : l.Pairwise fun x y => cmp x y = .lt) {k : Nat} {last : α}
    (hlast : (l.take k).getLast? = some last) :
    (l.filter fun x => cmp last x == .lt) = l.drop k := by
  obtain ⟨front, hfront⟩ := List.getLast?_eq_some_iff.1 hlast
  have hsplit : l.take k ++ l.drop k = l := List.take_append_drop k l
  rw [← hsplit, List.pairwise_append] at h
  obtain ⟨htake, -, hcross⟩ := h
  have hbefore : ((l.take k).filter fun x => cmp last x == .lt) = [] := by
    rw [List.filter_eq_nil_iff]
    intro x hx
    rw [hfront, List.pairwise_append] at htake
    rw [hfront, List.mem_append, List.mem_singleton] at hx
    rcases hx with hx | rfl
    · have hlt : cmp x last = .lt := htake.2.2 x hx last (by simp)
      have : cmp last x = .gt := Std.OrientedCmp.gt_of_lt hlt
      simp [this]
    · have hself : cmp x x = .eq := Std.ReflCmp.compare_self
      simp [hself]
  have hafter : ((l.drop k).filter fun x => cmp last x == .lt) = l.drop k := by
    rw [List.filter_eq_self]
    intro x hx
    simp [hcross last (hfront ▸ by simp) x hx]
  conv => lhs; rw [← hsplit]
  rw [List.filter_append, hbefore, hafter, List.nil_append]

/-! ## The time after a time -/

namespace Timestamp

theorem le_iff_of_next? {t next u : Timestamp} (h : next? t = some next) : next ≤ u ↔ t < u := by
  rw [next?] at h
  split at h
  · cases h
  · obtain rfl : t + 1 = next := by simpa using h
    grind

theorem le_of_next?_eq_none {t : Timestamp} (h : next? t = none) (u : Timestamp) : u ≤ t := by
  rw [next?] at h
  split at h
  · rename_i ht
    exact ht ▸ Int64.le_maxValue u
  · cases h

end Timestamp

/-- The window up to `t` contains the times until `t`. -/
theorem Window.contains_until {t u : Timestamp} :
    (⟨none, Timestamp.next? t⟩ : Window).contains u = true ↔ u ≤ t := by
  cases hnext : Timestamp.next? t with
  | none => simp [contains, Timestamp.le_of_next?_eq_none hnext]
  | some next =>
    have := Timestamp.le_iff_of_next? (u := u) hnext
    simp only [contains, Option.all_none, Option.all_some, Bool.true_and, decide_eq_true_eq]
    grind

/-- A window that is moved past one of its times contains the times that ascend from there. -/
theorem Window.contains_from_next {w : Window} {last next : Timestamp}
    (hlast : w.contains last = true) (hnext : Timestamp.next? last = some next) (t : Timestamp) :
    ({ w with start := some next } : Window).contains t =
      (w.contains t && Direction.ascending.compareTimes last t == .lt) := by
  rw [Bool.eq_iff_iff]
  simp only [contains, Option.all_some, Bool.and_eq_true, decide_eq_true_eq, beq_iff_eq,
    Direction.compareTimes, Std.compare_eq_lt, Timestamp.le_iff_of_next? hnext] at hlast ⊢
  constructor
  · rintro ⟨hlt, hstop⟩
    refine ⟨⟨?_, hstop⟩, hlt⟩
    cases hstart : w.start with
    | none => rfl
    | some f =>
      rw [hstart] at hlast
      have hf : f ≤ last := by simpa using hlast.1
      simpa using Int64.le_of_lt (Std.lt_of_le_of_lt hf hlt)
  · rintro ⟨⟨-, hstop⟩, hlt⟩
    exact ⟨hlt, hstop⟩

/-- A window that ends with one of its times contains the times that descend from there. -/
theorem Window.contains_until_last {w : Window} {last : Timestamp} (hlast : w.contains last = true)
    (t : Timestamp) :
    ({ w with stop := some last } : Window).contains t =
      (w.contains t && Direction.descending.compareTimes last t == .lt) := by
  rw [Bool.eq_iff_iff]
  simp only [contains, Option.all_some, Bool.and_eq_true, decide_eq_true_eq, beq_iff_eq,
    Direction.compareTimes, Std.compare_eq_lt] at hlast ⊢
  constructor
  · rintro ⟨hstart, hlt⟩
    refine ⟨⟨hstart, ?_⟩, hlt⟩
    cases hstop : w.stop with
    | none => rfl
    | some u =>
      rw [hstop] at hlast
      have hu : last < u := by simpa using hlast.2
      simpa using Std.lt_trans hlt hu
  · rintro ⟨⟨hstart, -⟩, hlt⟩
    exact ⟨hstart, hlt⟩

/-! ## Distinct keys -/

namespace SortedMap

variable {κ ν : Type} [Ord κ] [Std.TransOrd κ] [Std.LawfulEqOrd κ]

theorem get?_insertMany_isSome (m : SortedMap κ ν) (pairs : List (κ × ν)) (k : κ) :
    ((m.insertMany pairs).get? k).isSome ↔ (m.get? k).isSome ∨ k ∈ pairs.map (·.1) := by
  induction pairs generalizing m with
  | nil => simp [insertMany]
  | cons e rest ih =>
    have hstep : m.insertMany (e :: rest) = (m.insert e.1 e.2).insertMany rest := rfl
    rw [hstep, ih, get?_insert, List.map_cons, List.mem_cons]
    by_cases hk : compare k e.1 = .eq
    · have : k = e.1 := Std.LawfulEqOrd.compare_eq_iff_eq.1 hk
      simp [this]
    · have : k ≠ e.1 := fun h => hk (Std.LawfulEqOrd.compare_eq_iff_eq.2 h)
      simp [hk, this]

theorem mem_distinct {ks : List κ} {k : κ} : k ∈ distinct ks ↔ k ∈ ks := by
  rw [distinct, mem_keys_iff, ofList, get?_insertMany_isSome]
  simp

theorem pairwise_distinct (ks : List κ) : (distinct ks).Pairwise fun a b => compare a b = .lt :=
  List.pairwise_map.2 (ofList (ks.map fun k => (k, ()))).ascending

theorem nodup_distinct (ks : List κ) : (distinct ks).Nodup :=
  (pairwise_distinct ks).imp fun h he => by simp [he] at h

/-- A map with something filed under certain keys and nothing else has its values in their order. -/
theorem values_eq_map_distinct {m : SortedMap κ ν} {ks : List κ} [DecidablePred (· ∈ ks)] {f : κ → ν}
    (h : ∀ k, m.get? k = if k ∈ ks then some (f k) else none) : m.values = (distinct ks).map f := by
  have hm : m = (ofList (ks.map fun k => (k, ()))).mapValues fun k _ => f k := by
    refine ext_get? fun k => ?_
    have hkey : ((ofList (ks.map fun k => (k, ()))).get? k).isSome ↔ k ∈ ks := by
      rw [← mem_keys_iff]
      exact mem_distinct
    rw [h, get?_mapValues]
    split
    · obtain ⟨u, hu⟩ := Option.isSome_iff_exists.1 (hkey.2 ‹_›)
      rw [hu]
      rfl
    · rw [Option.not_isSome_iff_eq_none.1 (mt hkey.1 ‹_›)]
      rfl
  rw [hm, values, mapValues, List.map_map, distinct, keys, List.map_map]
  rfl

end SortedMap

/-! ## The rows of a window -/

namespace Archive

variable {a : Archive} {s : SeriesId} {w : Window} {d : Direction}

theorem mem_arrange {α : Type} {d : Direction} {x : α} {xs : List α} :
    x ∈ d.arrange xs ↔ x ∈ xs := by
  cases d <;> simp [Direction.arrange]

/-- The rows of a window are the entries that the archive has in it. -/
theorem mem_rows {r : Row} :
    r ∈ a.rows s w d ↔
      r.series = s ∧ w.contains r.time = true ∧ a.get? s r.time = some ⟨r.payload, r.note⟩ := by
  rw [rows, mem_arrange, History.rows, List.mem_map]
  constructor
  · rintro ⟨⟨t, e⟩, he, rfl⟩
    rw [History.inside, SortedMap.entries_filter, List.mem_filter] at he
    exact ⟨rfl, he.2, SortedMap.mem_entries_iff.1 he.1⟩
  · rintro ⟨hs, hw, hget⟩
    refine ⟨(r.time, ⟨r.payload, r.note⟩), ?_, by rw [← hs]⟩
    rw [History.inside, SortedMap.entries_filter, List.mem_filter]
    exact ⟨SortedMap.mem_entries_iff.2 hget, hw⟩

/-- The rows of a window come in the order of the read. -/
theorem pairwise_rows (a : Archive) (s : SeriesId) (w : Window) (d : Direction) :
    (a.rows s w d).Pairwise fun x y => d.compareTimes x.time y.time = .lt := by
  have hasc : (((a.history s).inside w).rows s).Pairwise
      fun x y => compare x.time y.time = .lt :=
    List.pairwise_map.2 ((a.history s).inside w).ascending
  cases d with
  | ascending => exact hasc
  | descending => exact List.pairwise_reverse.2 hasc

/-- A window in which fewer times lie holds fewer rows, in the same order. -/
theorem rows_eq_filter {w' : Window} (p : Timestamp → Bool)
    (h : ∀ t, w'.contains t = (w.contains t && p t)) :
    a.rows s w' d = (a.rows s w d).filter fun r => p r.time := by
  have hentries : ((a.history s).inside w').entries =
      ((a.history s).inside w).entries.filter fun e => p e.1 := by
    simp only [History.inside, SortedMap.entries_filter, List.filter_filter]
    exact List.filter_congr fun e _ => by rw [h, Bool.and_comm]
  have hrows : ((a.history s).inside w').rows s =
      (((a.history s).inside w).rows s).filter fun r => p r.time := by
    rw [History.rows, hentries, History.rows, List.filter_map]
    rfl
  cases d with
  | ascending => exact hrows
  | descending => rw [rows, rows, Direction.arrange, Direction.arrange, hrows, List.filter_reverse]

/-! ## Moving a window past its first rows -/

theorem contains_of_getLast? {k : Nat} {last : Row}
    (hlast : ((a.rows s w d).take k).getLast? = some last) : w.contains last.time = true :=
  (mem_rows.1 (List.mem_of_mem_take (List.mem_of_getLast? hlast))).2.1

/-- The rows after the last of the first `k` are the others. -/
theorem filter_rows_after {k : Nat} {last : Row}
    (hlast : ((a.rows s w d).take k).getLast? = some last) :
    ((a.rows s w d).filter fun r => d.compareTimes last.time r.time == .lt) =
      (a.rows s w d).drop k :=
  filter_after_getLast (pairwise_rows a s w d) hlast

theorem rows_after_ascending {k : Nat} {last : Row} {next : Timestamp}
    (hlast : ((a.rows s w .ascending).take k).getLast? = some last)
    (hnext : Timestamp.next? last.time = some next) :
    a.rows s { w with start := some next } .ascending = (a.rows s w .ascending).drop k := by
  rw [← filter_rows_after hlast]
  exact rows_eq_filter _ (Window.contains_from_next (contains_of_getLast? hlast) hnext)

/-- Nothing comes after a row at the end of time. -/
theorem drop_eq_nil_of_next?_eq_none {k : Nat} {last : Row}
    (hlast : ((a.rows s w .ascending).take k).getLast? = some last)
    (hnext : Timestamp.next? last.time = none) : (a.rows s w .ascending).drop k = [] := by
  rw [← filter_rows_after hlast, List.filter_eq_nil_iff]
  intro r _
  simpa [Direction.compareTimes, Std.compare_eq_lt] using
    Timestamp.le_of_next?_eq_none hnext r.time

theorem rows_after_descending {k : Nat} {last : Row}
    (hlast : ((a.rows s w .descending).take k).getLast? = some last) :
    a.rows s { w with stop := some last.time } .descending = (a.rows s w .descending).drop k := by
  rw [← filter_rows_after hlast]
  exact rows_eq_filter _ (Window.contains_until_last (contains_of_getLast? hlast))

/-! ## How many rows a window can hold -/

/-- Whole numbers that ascend between two bounds are no more than the bounds leave room for. -/
theorem length_le_of_ascending {xs : List Int} (h : xs.Pairwise (· < ·)) :
    ∀ {lo hi : Int}, (∀ x ∈ xs, lo ≤ x ∧ x < hi) → xs.length ≤ (hi - lo).toNat := by
  induction xs with
  | nil => simp
  | cons x rest ih =>
    intro lo hi hbounds
    rw [List.pairwise_cons] at h
    have hx := hbounds x List.mem_cons_self
    have hrest : rest.length ≤ (hi - (x + 1)).toNat :=
      ih h.2 fun y hy => ⟨h.1 y hy, (hbounds y (List.mem_cons_of_mem _ hy)).2⟩
    rw [List.length_cons]
    omega

theorem toInt_bounds_of_contains {t : Timestamp} (h : w.contains t = true) :
    (w.start.getD Int64.minValue).toInt ≤ t.toInt ∧
      t.toInt < w.stop.elim (Int64.maxValue.toInt + 1) Int64.toInt := by
  obtain ⟨start, stop⟩ := w
  simp only [Window.contains, Bool.and_eq_true] at h
  constructor
  · cases start with
    | none => exact Int64.le_toInt t
    | some f => exact Int64.le_iff_toInt_le.1 (by simpa using h.1)
  · cases stop with
    | none => exact Int.lt_add_one_of_le (Int64.toInt_le t)
    | some u => exact Int64.lt_iff_toInt_lt.1 (by simpa using h.2)

/-- Rows that come in the order of a direction are no more than the times of a window they lie in. -/
theorem length_le_width {rows : List Row}
    (hordered : rows.Pairwise fun x y => d.compareTimes x.time y.time = .lt)
    (hin : ∀ r ∈ rows, w.contains r.time = true) : rows.length ≤ w.width := by
  have hascending : ((d.arrange rows).map fun r => r.time.toInt).Pairwise (· < ·) := by
    refine List.pairwise_map.2 ?_
    cases d with
    | ascending =>
      exact hordered.imp fun h => Int64.lt_iff_toInt_lt.1 (Std.compare_eq_lt.1 h)
    | descending =>
      exact List.pairwise_reverse.2
        (hordered.imp fun h => Int64.lt_iff_toInt_lt.1 (Std.compare_eq_lt.1 h))
  have hbounds : ∀ x ∈ (d.arrange rows).map (fun r => r.time.toInt),
      (w.start.getD Int64.minValue).toInt ≤ x ∧
        x < w.stop.elim (Int64.maxValue.toInt + 1) Int64.toInt := by
    intro x hx
    obtain ⟨r, hr, rfl⟩ := List.mem_map.1 hx
    exact toInt_bounds_of_contains (hin r (mem_arrange.1 hr))
  have hlength : (d.arrange rows).length = rows.length := by
    cases d <;> simp [Direction.arrange]
  rw [← hlength, ← List.length_map fun r : Row => r.time.toInt]
  exact length_le_of_ascending hascending hbounds

theorem length_rows_le (a : Archive) (s : SeriesId) (w : Window) (d : Direction) :
    (a.rows s w d).length ≤ w.width :=
  length_le_width (pairwise_rows a s w d) fun _ hr => (mem_rows.1 hr).2.1

/-! ## The answer to a combined read -/

/-- `rows` is all that the archive holds for some series in a window, by time as the direction meets
it and then by series. -/
structure Answers (a : Archive) (series : List SeriesId) (w : Window) (d : Direction)
    (rows : List Row) : Prop where
  ordered : rows.Pairwise fun x y => d.compareRows x y = .lt
  mem_iff : ∀ r, r ∈ rows ↔
    r.series ∈ series ∧ w.contains r.time = true ∧
      a.get? r.series r.time = some ⟨r.payload, r.note⟩

/-- An archive has one answer to a read. -/
theorem Answers.unique {series : List SeriesId} {xs ys : List Row}
    (hx : a.Answers series w d xs) (hy : a.Answers series w d ys) : xs = ys := by
  have hnodup : ∀ {l : List Row}, a.Answers series w d l → l.Nodup := fun hl =>
    hl.ordered.imp fun {x _} h he => by
      have hself : d.compareRows x x = .eq := Std.ReflCmp.compare_self
      simp [← he, hself] at h
  have hperm : xs.Perm ys :=
    (List.perm_ext_iff_of_nodup (hnodup hx) (hnodup hy)).2 fun r => by rw [hx.mem_iff, hy.mem_iff]
  refine hperm.eq_of_pairwise (fun x y _ _ hxy hyx => ?_) hx.ordered hy.ordered
  have hlt : d.compareRows x x = .lt := Std.TransCmp.lt_trans hxy hyx
  have hself : d.compareRows x x = .eq := Std.ReflCmp.compare_self
  rw [hself] at hlt
  cases hlt

end Archive

end Historian
