import Historian.Database.Edges
import Historian.Proofs.Read.Combined

/-!
# The limit of a bookend read

The body of a bookend read is read from the window that starts with the start entry, so a row at
exactly the start takes a place under the limit although it is not reported as a row.

* `Standing.follow_rows` — following the body reports its rows after the start.
* `Archive.InForce`, `Database.standingAt_spec` — what is in force at the start.
* `Database.bookendsPerPoint_spec`, `Database.bookendsCombined_spec` — all that bookend reads report.
* `Database.bookends_limit_iff` — when the limit counts the rows reported alone.
-/

set_option autoImplicit false

namespace Historian

/-! ## Rows at the start and after it -/

/-- How many of the rows stand at exactly the start. -/
def atStart (start : Timestamp) (rows : List Row) : Nat := rows.countP fun r => r.time = start

/-- The rows after the start. -/
def afterStart (start : Timestamp) (rows : List Row) : List Row := rows.filter fun r => start < r.time

/-- Under this limit no row at the start takes the place of a row after it. -/
def LimitSparesRows (start : Timestamp) (limit : Option Nat) (rows : List Row) : Prop :=
  ∀ l, limit = some l →
    l = 0 ∨ atStart start rows = 0 ∨ (afterStart start rows).length ≤ l - atStart start rows

theorem firstOf_sub_eq_iff {start : Timestamp} {limit : Option Nat} {rows : List Row} :
    firstOf (limit.map (· - atStart start rows)) (afterStart start rows) =
        firstOf limit (afterStart start rows) ↔
      LimitSparesRows start limit rows := by
  cases limit with
  | none => exact ⟨fun _ _ hl => absurd hl (by simp), fun _ => rfl⟩
  | some l =>
    have hlengths : (afterStart start rows).take (l - atStart start rows) =
          (afterStart start rows).take l ↔
        min (l - atStart start rows) (afterStart start rows).length =
          min l (afterStart start rows).length := by
      constructor
      · intro h
        rw [← List.length_take, ← List.length_take, h]
      · intro h
        rw [List.take_eq_take_min, h, ← List.take_eq_take_min]
    refine hlengths.trans ⟨fun h l' hl' => ?_, fun h => ?_⟩
    · obtain rfl := Option.some.inj hl'
      omega
    · have := h l rfl
      omega

/-- Of rows in the order of time, none of which comes before the start, those at the start come
first. -/
theorem afterStart_take {start : Timestamp} {rows : List Row}
    (hordered : rows.Pairwise fun x y => x.time ≤ y.time) (hstart : ∀ r ∈ rows, start ≤ r.time)
    (l : Nat) :
    afterStart start (rows.take l) = (afterStart start rows).take (l - atStart start rows) := by
  induction rows generalizing l with
  | nil => simp [afterStart]
  | cons r rest ih =>
    obtain ⟨hr, hrest⟩ := List.pairwise_cons.1 hordered
    have ih := ih hrest fun x hx => hstart x (List.mem_cons_of_mem _ hx)
    cases l with
    | zero => simp [afterStart]
    | succ l =>
      by_cases hlt : start < r.time
      · -- all rows are after the start
        have hnone : atStart start (r :: rest) = 0 := by
          rw [atStart, List.countP_eq_zero]
          intro x hx
          rcases List.mem_cons.1 hx with rfl | hx
          · grind
          · have := hr x hx
            grind
        have hnone' : atStart start rest = 0 := by
          rw [atStart, List.countP_cons] at hnone
          exact (Nat.add_eq_zero_iff.1 hnone).1
        have := ih l
        rw [hnone', Nat.sub_zero] at this
        rw [hnone, List.take_succ_cons, afterStart, List.filter_cons_of_pos (by simpa using hlt),
          afterStart, List.filter_cons_of_pos (by simpa using hlt), Nat.sub_zero,
          List.take_succ_cons]
        exact congrArg _ this
      · have heq : r.time = start := by
          have := hstart r List.mem_cons_self
          grind
        have hcount : atStart start (r :: rest) = atStart start rest + 1 := by
          simp [atStart, heq]
        rw [hcount, List.take_succ_cons, afterStart, List.filter_cons_of_neg (by simpa using hlt),
          afterStart, List.filter_cons_of_neg (by simpa using hlt), Nat.add_sub_add_right]
        exact ih l

theorem afterStart_firstOf {start : Timestamp} {rows : List Row}
    (hordered : rows.Pairwise fun x y => x.time ≤ y.time) (hstart : ∀ r ∈ rows, start ≤ r.time)
    (limit : Option Nat) :
    afterStart start (firstOf limit rows) =
      firstOf (limit.map (· - atStart start rows)) (afterStart start rows) := by
  cases limit with
  | none => rfl
  | some l => exact afterStart_take hordered hstart l

/-! ## What is in force -/

namespace Archive

/-- The entry in force for a series at `t` is its last one at `t` or before, or a vacant one. -/
inductive InForce (a : Archive) (id : SeriesId) (t : Timestamp) : Bookend → Prop
  | value {u : Timestamp} {e : Entry} (hle : u ≤ t) (hget : a.get? id u = some e)
      (hlast : ∀ v, u < v → v ≤ t → a.get? id v = none) :
      InForce a id t ⟨id, u, some e.payload, e.note⟩
  | vacant (hnone : ∀ v, v ≤ t → a.get? id v = none) : InForce a id t (.vacant id t)

/-- What the last row until `t` puts in force. -/
def standing (a : Archive) (id : SeriesId) (t : Timestamp) : Bookend :=
  (a.rows id ⟨none, Timestamp.next? t⟩ .descending).head?.elim (.vacant id t) .ofRow

theorem inForce_standing (a : Archive) (id : SeriesId) (t : Timestamp) :
    a.InForce id t (a.standing id t) := by
  have hmem : ∀ v e, v ≤ t → a.get? id v = some e →
      ⟨id, v, e.payload, e.note⟩ ∈ a.rows id ⟨none, Timestamp.next? t⟩ .descending :=
    fun v e hv hget => mem_rows.2 ⟨rfl, Window.contains_until.2 hv, hget⟩
  have hordered := pairwise_rows a id ⟨none, Timestamp.next? t⟩ .descending
  rw [standing]
  cases hrows : a.rows id ⟨none, Timestamp.next? t⟩ .descending with
  | nil =>
    refine .vacant fun v hv => Option.eq_none_iff_forall_ne_some.2 fun e hget => ?_
    simpa [hrows] using hmem v e hv hget
  | cons first rest =>
    obtain ⟨rfl, hin, hget⟩ := mem_rows.1 (hrows ▸ List.mem_cons_self :
      first ∈ a.rows id ⟨none, Timestamp.next? t⟩ .descending)
    -- the first of the descending rows is the last one
    have hlast : ∀ v, first.time < v → v ≤ t → a.get? first.series v = none := by
      intro v hlt hv
      rw [Option.eq_none_iff_forall_ne_some]
      intro e hget
      have hlater := hmem v e hv hget
      rw [hrows] at hordered hlater
      rcases List.mem_cons.1 hlater with he | hlater
      · exact absurd (congrArg Row.time he) (by grind)
      · have hbefore := (List.pairwise_cons.1 hordered).1 _ hlater
        simp only [Direction.compareTimes, Std.compare_eq_lt] at hbefore
        grind
    exact .value (e := ⟨first.payload, first.note⟩) (Window.contains_until.1 hin) hget hlast

end Archive

/-! ## Following the body -/

namespace Standing

/-- What is in force for a series lets its rows after the start pass, and the one at the start not. -/
def Opens (standing : Standing) (start : Timestamp) (r : Row) : Prop :=
  ((standing.get? r.series).all fun b => b.time < r.time) = decide (start < r.time)

/-- Only rows that are followed are reported. -/
theorem follow_sublist {rows : List Row} :
    ∀ {standing : Standing}, (follow rows standing).1.Sublist rows := by
  induction rows with
  | nil => intro _; exact .refl _
  | cons r rest ih =>
    intro standing
    rw [follow]
    split
    · exact ih.cons_cons r
    · exact ih.cons r

/-- What a series has in force after some rows is the last of those reported of it. -/
def after (b : Bookend) (rows : List Row) : Bookend := rows.getLast?.elim b .ofRow

theorem get?_follow {id : SeriesId} {rows : List Row} :
    ∀ {standing : Standing}, (follow rows standing).2.get? id =
      (((follow rows standing).1.filter fun r => r.series = id).getLast?.map Bookend.ofRow).or
        (standing.get? id) := by
  induction rows with
  | nil => intro _; rfl
  | cons r rest ih =>
    intro standing
    rw [follow]
    split
    · simp only
      rw [ih, SortedMap.get?_insert]
      by_cases hr : r.series = id
      · subst hr
        rw [List.filter_cons_of_pos (by simp), List.getLast?_cons, if_pos Std.ReflCmp.compare_self]
        cases List.getLast? _ <;> rfl
      · rw [List.filter_cons_of_neg (by simpa using hr), if_neg]
        exact fun he => hr (Std.LawfulEqOrd.compare_eq_iff_eq.1 he).symm
    · exact ih

/-- The same for a series that has something in force before. -/
theorem get?_follow_of_some {id : SeriesId} {b : Bookend} {rows : List Row} {standing : Standing}
    (h : standing.get? id = some b) : (follow rows standing).2.get? id =
      some (after b ((follow rows standing).1.filter fun r => r.series = id)) := by
  rw [get?_follow, h, after]
  cases List.getLast? _ <;> rfl

/-- Rows of other series leave what a series has in force alone. -/
theorem get?_follow_other {id : SeriesId} {rows : List Row} {standing : Standing}
    (h : ∀ r ∈ rows, r.series ≠ id) : (follow rows standing).2.get? id = standing.get? id := by
  have hnone : (follow rows standing).1.filter (fun r => r.series = id) = [] := by
    rw [List.filter_eq_nil_iff]
    intro r hr
    simpa using h r (follow_sublist.subset hr)
  rw [get?_follow, hnone]
  rfl

/-- Following rows of which no series has two out of order reports those after the start. -/
theorem follow_rows {start : Timestamp} {rows : List Row} :
    ∀ {standing : Standing}, (∀ r ∈ rows, standing.Opens start r) →
      (rows.Pairwise fun x y => x.series = y.series → x.time < y.time) →
      (∀ r ∈ rows, start ≤ r.time) → (follow rows standing).1 = afterStart start rows := by
  induction rows with
  | nil => intro _ _ _ _; rfl
  | cons r rest ih =>
    intro standing hopens hordered hstart
    obtain ⟨hr, hrest⟩ := List.pairwise_cons.1 hordered
    have hstart' : ∀ x ∈ rest, start ≤ x.time := fun x hx => hstart x (List.mem_cons_of_mem _ hx)
    have hopen : ((standing.get? r.series).all fun b => b.time < r.time) = decide (start < r.time) :=
      hopens r List.mem_cons_self
    by_cases hlt : start < r.time
    · -- what the row puts in force lets the later rows of its series pass
      have hopens' : ∀ x ∈ rest, Opens (standing.insert r.series (.ofRow r)) start x := by
        intro x hx
        by_cases hseries : x.series = r.series
        · have hlater := hr x hx hseries.symm
          have hx : start < x.time := by grind
          simp [Opens, SortedMap.get?_insert, hseries, Bookend.ofRow, hlater, hx]
        · have := hopens x (List.mem_cons_of_mem _ hx)
          simpa [Opens, SortedMap.get?_insert, hseries] using this
      rw [follow, if_pos (by rw [hopen]; simpa using hlt), afterStart,
        List.filter_cons_of_pos (by simpa using hlt)]
      exact congrArg _ (ih hopens' hrest hstart')
    · rw [follow, if_neg (by rw [hopen]; simpa using hlt), afterStart,
        List.filter_cons_of_neg (by simpa using hlt)]
      exact ih (fun x hx => hopens x (List.mem_cons_of_mem _ hx)) hrest hstart'

end Standing

/-- What a read of one series reports of which it brings some rows after the start. -/
def Archive.reports (a : Archive) (start stop : Timestamp) (id : SeriesId) (rows : List Row) :
    List BookendEvent :=
  Standing.opening start (a.standing id start) ::
    (rows.map .row ++ [Standing.closing stop (Standing.after (a.standing id start) rows)])

/-! ## Reading series one after the other -/

namespace Database

variable {σ : Type} {db : Database σ} {a : Archive} {Intact : σ → Prop}

theorem pure_apply {α : Type} (x : α) (s : σ) : (pure x : StateM σ α) s = (x, s) := rfl

/-- A read of one series brings the first rows of its window. -/
theorem drain_spec (hb : db.backend.ReadsFrom a Intact) (series : SeriesId) (w : Window)
    (limit : Option Nat) (d : Direction) (before : Nat) {s : σ} (hs : Intact s) :
    (db.drain series w limit d .none before s).1 = ⟨firstOf limit (a.rows series w d), none⟩ ∧
      Intact (db.drain series w limit d .none before s).2 := by
  have hcursor := Cursor.onWindow_yields hb series w (db.limitedChunk_pos limit) d
  obtain ⟨hrows, hintact⟩ := deliverRows_of_yields Reaction.none_intact before hcursor hs
  exact ⟨by rw [drain, hrows, take_budget (Archive.length_rows_le ..)], hintact⟩

/-- A read in parts that do not fail brings what its parts bring. -/
theorem deliverInTurn_spec {ι : Type} {read : ι → Nat → StateM σ Delivery} {rows : ι → List Row}
    (hread : ∀ i before s, Intact s →
      (read i before s).1 = ⟨rows i, none⟩ ∧ Intact (read i before s).2) {is : List ι} :
    ∀ (before : Nat) {s : σ}, Intact s →
      (deliverInTurn read before is s).1 = ⟨is.flatMap rows, none⟩ ∧
        Intact (deliverInTurn read before is s).2 := by
  induction is with
  | nil => exact fun _ _ hs => ⟨rfl, hs⟩
  | cons i rest ih =>
    intro before s hs
    obtain ⟨hrows, hs'⟩ := hread i before s hs
    rcases hcall : read i before s with ⟨d, s'⟩
    rw [hcall] at hrows hs'
    obtain rfl : d = ⟨rows i, none⟩ := hrows
    obtain ⟨hothers, hs''⟩ := ih (before + (rows i).length) hs'
    rcases hrest : deliverInTurn read (before + (rows i).length) rest s' with ⟨d', s''⟩
    rw [hrest] at hothers hs''
    obtain rfl : d' = ⟨rest.flatMap rows, none⟩ := hothers
    simp only [deliverInTurn, hcall, hrest]
    exact ⟨by rw [List.flatMap_cons], hs''⟩

/-- A read point by point brings the first rows of each series. -/
theorem perPoint_spec (hb : db.backend.ReadsFrom a Intact) (points : List Point)
    {start stop : Option Timestamp} {limit : Option Int} {w : Window} {l : Option Nat}
    (hargs : checkArguments start stop limit = .ok (w, l)) (d : Direction) {s : σ} (hs : Intact s) :
    (db.perPoint points start stop limit d .none s).1 =
        ⟨(seriesOf points).flatMap fun series => firstOf l (a.rows series w d), none⟩ ∧
      Intact (db.perPoint points start stop limit d .none s).2 := by
  simp only [perPoint, hargs, checked, drainInTurn]
  exact deliverInTurn_spec (fun series before s hs => drain_spec hb series w l d before hs) 0 hs

/-! ## What is in force at the start -/

theorem get?_foldl_vacant {points : List Point} {t : Timestamp} {series : SeriesId} :
    ∀ {m : Standing},
      (points.foldl (fun (m : Standing) p =>
        if m.contains p.series then m else m.insert p.series (.vacant p.series t)) m).get? series =
      (m.get? series).or
        (if series ∈ points.map Point.series then some (.vacant series t) else none) := by
  induction points with
  | nil => simp
  | cons p rest ih =>
    intro m
    rw [List.foldl_cons, ih]
    by_cases hp : series = p.series
    · subst hp
      cases h : m.get? p.series with
      | some b => simp [SortedMap.contains, h]
      | none => simp [SortedMap.contains, h, SortedMap.get?_insert]
    · have hkept : SortedMap.get? (if m.contains p.series then m
          else m.insert p.series (.vacant p.series t)) series = m.get? series := by
        split
        · rfl
        · rw [SortedMap.get?_insert, if_neg (by simpa using hp)]
      simp [hkept, hp]

theorem get?_ofList_eq_some {pairs : List (SeriesId × Bookend)} {series : SeriesId} {b : Bookend}
    (h : (SortedMap.ofList pairs).get? series = some b) : (series, b) ∈ pairs := by
  have hmany : ∀ {m : Standing}, (m.insertMany pairs).get? series = some b →
      (series, b) ∈ pairs ∨ m.get? series = some b := by
    clear h
    induction pairs with
    | nil => exact fun h => .inr h
    | cons e rest ih =>
      intro m h
      rcases ih h with hrest | hinsert
      · exact .inl (List.mem_cons_of_mem _ hrest)
      · rw [SortedMap.get?_insert] at hinsert
        split at hinsert
        · rename_i hk
          obtain rfl : series = e.1 := Std.LawfulEqOrd.compare_eq_iff_eq.1 hk
          obtain rfl : e.2 = b := by simpa using hinsert
          exact .inl List.mem_cons_self
        · exact .inr hinsert
  rcases hmany h with h | h
  · exact h
  · simp at h

theorem not_mem_of_get?_ofList_eq_none {pairs : List (SeriesId × Bookend)} {series : SeriesId}
    (h : (SortedMap.ofList pairs).get? series = none) : series ∉ pairs.map (·.1) := by
  intro hmem
  have := (SortedMap.get?_insertMany_isSome .empty pairs series).2 (.inr hmem)
  rw [SortedMap.ofList] at h
  rw [h] at this
  cases this

/-- What is found in force at `t` is filed under each series asked for. -/
theorem standingAt_spec (hb : db.backend.ReadsFrom a Intact) (points : List Point) (t : Timestamp)
    {s : σ} (hs : Intact s) :
    ∃ standing, (db.standingAt points t s).1 = .ok standing ∧ Intact (db.standingAt points t s).2 ∧
      ∀ id, standing.get? id =
        if id ∈ points.map Point.series then some (a.standing id t) else none := by
  have hargs : checkArguments none (Timestamp.next? t) (some 1) =
      .ok (⟨none, Timestamp.next? t⟩, some 1) :=
    checkArguments_eq_ok (by simp) (some 1)
  obtain ⟨hread, hs'⟩ := perPoint_spec hb points hargs .descending hs
  rcases hcall : db.perPoint points none (Timestamp.next? t) (some 1) .descending .none s
    with ⟨delivery, s'⟩
  rw [hcall] at hread hs'
  obtain rfl : delivery = _ := hread
  simp only [standingAt, bind, StateT.bind, hcall, Delivery.toExcept]
  refine ⟨_, rfl, hs', fun id => ?_⟩
  rw [get?_foldl_vacant]
  cases hfound : SortedMap.get? (SortedMap.ofList (((seriesOf points).flatMap fun series =>
      firstOf (some 1) (a.rows series ⟨none, Timestamp.next? t⟩ .descending)).map
        fun r => (r.series, Bookend.ofRow r))) id with
  | none =>
    rw [Option.none_or]
    split
    · rename_i hid
      -- a value of the series would have been found
      cases hrows : a.rows id ⟨none, Timestamp.next? t⟩ .descending with
      | nil => rw [Archive.standing, hrows]; rfl
      | cons r rest =>
        have hr : r.series = id := (Archive.mem_rows.1 (hrows ▸ List.mem_cons_self)).1
        refine absurd ?_ (not_mem_of_get?_ofList_eq_none hfound)
        rw [List.map_map, List.mem_map]
        refine ⟨r, List.mem_flatMap.2 ⟨id, SortedMap.mem_distinct.2 hid, ?_⟩, hr⟩
        simp [firstOf, hrows]
    · rfl
  | some b =>
    obtain ⟨last, hlast, he⟩ := List.mem_map.1 (get?_ofList_eq_some hfound)
    obtain ⟨rfl, rfl⟩ := Prod.mk.inj he
    obtain ⟨series, hseries, hlast⟩ := List.mem_flatMap.1 hlast
    obtain rfl : last.series = series := (Archive.mem_rows.1 (List.mem_of_mem_take hlast)).1
    rw [Option.some_or, if_pos (SortedMap.mem_distinct.1 hseries), Archive.standing]
    cases hrows : a.rows last.series ⟨none, Timestamp.next? t⟩ .descending with
    | nil => simp [firstOf, hrows] at hlast
    | cons first rest =>
      obtain rfl : last = first := by simpa [firstOf, hrows] using hlast
      rfl

/-- What is in force at `t` lets rows after `t` pass, and the row at `t` not. -/
theorem opens_of_get? {standing : Standing} {t : Timestamp} {r : Row}
    (hget : standing.get? r.series = some (a.standing r.series t)) (htime : t ≤ r.time)
    (hrow : a.get? r.series r.time = some ⟨r.payload, r.note⟩) : standing.Opens t r := by
  rw [Standing.Opens, hget, Option.all_some, decide_eq_decide]
  have hforce := a.inForce_standing r.series t
  generalize a.standing r.series t = b at hforce
  cases hforce with
  | value hle hget hlast =>
    refine ⟨fun hlt => ?_, fun hlt => Std.lt_of_le_of_lt hle hlt⟩
    by_cases hr : r.time ≤ t
    · rw [hlast r.time hlt hr] at hrow
      cases hrow
    · grind
  | vacant hnone => exact Iff.rfl

/-! ## What is reported -/

theorem start_le_of_contains {start t : Timestamp} {stop : Option Timestamp}
    (h : (⟨some start, stop⟩ : Window).contains t = true) : start ≤ t := by
  simp only [Window.contains, Option.all_some, Bool.and_eq_true, decide_eq_true_eq] at h
  exact h.1

/-- Following the first rows of one series leaves those after the start, the last of which is in force
then; the other series are left as they are. -/
theorem follow_series {standing : Standing} {start : Timestamp} {id : SeriesId}
    (hforce : standing.get? id = some (a.standing id start)) (stop : Timestamp)
    (limit : Option Nat) :
    let rows := firstOf limit (a.rows id ⟨some start, some stop⟩ .ascending)
    (standing.follow rows).1 = afterStart start rows ∧
      (standing.follow rows).2.get? id =
        some (Standing.after (a.standing id start) (afterStart start rows)) ∧
      ∀ id', id' ≠ id → (standing.follow rows).2.get? id' = standing.get? id' := by
  intro rows
  have hrow : ∀ r ∈ rows,
      r.series = id ∧ start ≤ r.time ∧ a.get? id r.time = some ⟨r.payload, r.note⟩ := by
    intro r hr
    obtain ⟨hseries, hin, hget⟩ := Archive.mem_rows.1 ((firstOf_sublist limit _).subset hr)
    exact ⟨hseries, start_le_of_contains hin, hget⟩
  have hstrict : rows.Pairwise fun x y => x.series = y.series → x.time < y.time :=
    ((Archive.pairwise_rows a id ⟨some start, some stop⟩ .ascending).sublist
      (firstOf_sublist limit _)).imp fun h _ => Std.compare_eq_lt.1 h
  have hopens : ∀ r ∈ rows, standing.Opens start r := by
    intro r hr
    obtain ⟨rfl, htime, hget⟩ := hrow r hr
    exact opens_of_get? hforce htime hget
  have hfollow : (standing.follow rows).1 = afterStart start rows :=
    Standing.follow_rows hopens hstrict fun r hr => (hrow r hr).2.1
  refine ⟨hfollow, ?_, fun id' hid' =>
    Standing.get?_follow_other fun r hr he => hid' (he.symm.trans (hrow r hr).1)⟩
  have hown : ((afterStart start rows).filter fun r => r.series = id) = afterStart start rows :=
    List.filter_eq_self.2 fun r hr => by simpa using (hrow r (List.mem_filter.1 hr).1).1
  rw [Standing.get?_follow_of_some hforce, hfollow, hown]

/-- Point by point, each series is reported with its rows after the start, of those under the
limit. -/
theorem bookendsInTurn_spec (hb : db.backend.ReadsFrom a Intact) {start stop : Timestamp}
    {limit : Option Nat} {series : List SeriesId} :
    ∀ {standing : Standing} {s : σ}, series.Nodup →
      (∀ id ∈ series, standing.get? id = some (a.standing id start)) → Intact s →
      (db.bookendsInTurn ⟨some start, some stop⟩ start stop limit series standing s).1 =
        ⟨series.flatMap fun id => a.reports start stop id
          (afterStart start (firstOf limit (a.rows id ⟨some start, some stop⟩ .ascending))),
          none⟩ := by
  induction series with
  | nil => exact fun _ _ _ => rfl
  | cons id rest ih =>
    intro standing s hnodup hforce hs
    obtain ⟨hid, hrest⟩ := List.nodup_cons.1 hnodup
    obtain ⟨hbody, hs'⟩ := drain_spec hb id ⟨some start, some stop⟩ limit .ascending 0 hs
    rcases hdrain : db.drain id ⟨some start, some stop⟩ limit .ascending .none 0 s
      with ⟨body, s'⟩
    rw [hdrain] at hbody hs'
    obtain rfl : body = _ := hbody
    have hopening := hforce id List.mem_cons_self
    obtain ⟨hfollow, hclosing, hothers⟩ := follow_series hopening stop limit
    have hforce' : ∀ id' ∈ rest, (standing.follow
        (firstOf limit (a.rows id ⟨some start, some stop⟩ .ascending))).2.get? id' =
          some (a.standing id' start) := fun id' hid' =>
      (hothers id' fun he => hid (he ▸ hid')).trans (hforce id' (List.mem_cons_of_mem _ hid'))
    have hreported := ih hrest hforce' hs'
    rcases hcall : db.bookendsInTurn ⟨some start, some stop⟩ start stop limit rest
      (standing.follow (firstOf limit (a.rows id ⟨some start, some stop⟩ .ascending))).2 s'
      with ⟨others, s''⟩
    rw [hcall] at hreported
    obtain rfl : others = _ := hreported
    simp only [bookendsInTurn, bind, StateT.bind, pure_apply, hdrain, hcall, hclosing, hfollow,
      hopening, Option.map_some, Option.toList_some]
    rw [List.flatMap_cons, Archive.reports]
    simp

/-- The rows of a read of several series stand in the order of time, those of one series strictly. -/
theorem times_of_answers {series : List SeriesId} {w : Window} {rows : List Row}
    (h : a.Answers series w .ascending rows) :
    (rows.Pairwise fun x y => x.time ≤ y.time) ∧
      rows.Pairwise fun x y => x.series = y.series → x.time < y.time := by
  refine ⟨h.ordered.imp fun hlt => ?_, h.ordered.imp fun hlt hsame => ?_⟩
  · rcases Direction.compareRows_eq_lt.1 hlt with hlt | ⟨heq, -⟩
    · exact Int64.le_of_lt (Std.compare_eq_lt.1 hlt)
    · exact heq ▸ Std.le_refl _
  · rcases Direction.compareRows_eq_lt.1 hlt with hlt | ⟨-, hlt⟩
    · exact Std.compare_eq_lt.1 hlt
    · exact absurd (hsame ▸ hlt) (UInt64.lt_irrefl _)

/-- Together, all series are reported with their rows after the start, of those under the limit. -/
theorem bookendsCombined_spec (hb : db.backend.ReadsFrom a Intact) (points : List Point)
    {start stop : Timestamp} {limit : Option Int} {l : Option Nat}
    (hargs : checkArguments (some start) (some stop) limit = .ok (⟨some start, some stop⟩, l))
    {rows : List Row}
    (hrows : a.Answers (points.map Point.series) ⟨some start, some stop⟩ .ascending rows) {s : σ}
    (hs : Intact s) :
    (db.bookendsCombined points start stop limit s).1 =
      ⟨(seriesOf points).map (fun id => Standing.opening start (a.standing id start)) ++
        (afterStart start (firstOf l rows)).map .row ++
        (seriesOf points).map (fun id => Standing.closing stop (Standing.after (a.standing id start)
          ((afterStart start (firstOf l rows)).filter fun r => r.series = id))), none⟩ := by
  by_cases hpoints : points.isEmpty = true
  · obtain rfl : points = [] := List.isEmpty_iff.1 hpoints
    have hnil : rows = [] := by
      rw [List.eq_nil_iff_forall_not_mem]
      intro r hr
      simpa using ((hrows.mem_iff r).1 hr).1
    subst hnil
    cases l <;> simp [bookendsCombined, bookendRead, hargs, afterStart, firstOf, pure_apply, seriesOf,
      SortedMap.distinct, SortedMap.ofList, SortedMap.insertMany, SortedMap.keys]
  · obtain ⟨standing, hstanding, hs', hforce⟩ := standingAt_spec hb points start hs
    rcases hcall : db.standingAt points start s with ⟨answer, s'⟩
    rw [hcall] at hstanding hs'
    obtain rfl : answer = .ok standing := hstanding
    obtain ⟨out, hanswers, hout⟩ := a.exists_answer points ⟨some start, some stop⟩ .ascending
    obtain rfl : out = rows := hanswers.unique hrows
    have hbody := drainMerged_spec hb l Reaction.none_intact hout hs'
    rcases hdrain : db.drainMerged (seriesOf points) ⟨some start, some stop⟩ l .ascending .none s'
      with ⟨body, s''⟩
    rw [hdrain] at hbody
    obtain rfl : body = ⟨firstOf l out, none⟩ := hbody
    have hrow : ∀ r ∈ firstOf l out, r.series ∈ points.map Point.series ∧ start ≤ r.time ∧
        a.get? r.series r.time = some ⟨r.payload, r.note⟩ := by
      intro r hr
      obtain ⟨hid, hin, hget⟩ := (hrows.mem_iff r).1 ((firstOf_sublist l _).subset hr)
      exact ⟨hid, start_le_of_contains hin, hget⟩
    have hfollow : (standing.follow (firstOf l out)).1 = afterStart start (firstOf l out) :=
      Standing.follow_rows
        (fun r hr => opens_of_get? ((hforce _).trans (if_pos (hrow r hr).1)) (hrow r hr).2.1
          (hrow r hr).2.2)
        ((times_of_answers hrows).2.sublist (firstOf_sublist l out))
        (fun r hr => (hrow r hr).2.1)
    have hopening := SortedMap.values_eq_map_distinct hforce
    -- the rows are of the series asked for, so nothing else is in force after them
    have hforce' : ∀ id, (standing.follow (firstOf l out)).2.get? id =
        if id ∈ points.map Point.series then some (Standing.after (a.standing id start)
          ((afterStart start (firstOf l out)).filter fun r => r.series = id)) else none := by
      intro id
      split
      · rename_i hid
        rw [← hfollow]
        exact Standing.get?_follow_of_some ((hforce id).trans (if_pos hid))
      · rename_i hid
        rw [Standing.get?_follow_other fun r hr (he : r.series = id) => hid (he ▸ (hrow r hr).1)]
        exact (hforce id).trans (if_neg hid)
    have hclosing := SortedMap.values_eq_map_distinct hforce'
    simp only [bookendsCombined, bookendRead, hargs, hpoints, bind, StateT.bind, pure_apply,
      hcall, hdrain, Bool.false_eq_true, if_false, hopening, hclosing, hfollow, List.map_map]
    rfl

theorem bookendsPerPoint_spec (hb : db.backend.ReadsFrom a Intact) (points : List Point)
    {start stop : Timestamp} {limit : Option Int} {l : Option Nat}
    (hargs : checkArguments (some start) (some stop) limit = .ok (⟨some start, some stop⟩, l))
    {s : σ} (hs : Intact s) :
    (db.bookendsPerPoint points start stop limit s).1 =
      ⟨(seriesOf points).flatMap fun id => a.reports start stop id
        (afterStart start (firstOf l (a.rows id ⟨some start, some stop⟩ .ascending))), none⟩ := by
  by_cases hpoints : points.isEmpty = true
  · obtain rfl : points = [] := List.isEmpty_iff.1 hpoints
    simp [bookendsPerPoint, bookendRead, hargs, pure_apply, seriesOf, SortedMap.distinct,
      SortedMap.ofList, SortedMap.insertMany, SortedMap.keys]
  · obtain ⟨standing, hstanding, hs', hforce⟩ := standingAt_spec hb points start hs
    rcases hcall : db.standingAt points start s with ⟨answer, s'⟩
    rw [hcall] at hstanding hs'
    obtain rfl : answer = .ok standing := hstanding
    simp only [bookendsPerPoint, bookendRead, hargs, hpoints, bind, StateT.bind, hcall,
      Bool.false_eq_true, if_false]
    exact bookendsInTurn_spec hb (SortedMap.nodup_distinct _)
      (fun id hid => (hforce id).trans (if_pos (SortedMap.mem_distinct.1 hid))) hs'

/-! ## The rows reported -/

/-- Of the reports between the openings and the closings the rows are rows. -/
theorem rows_reports (start stop : Timestamp) (opened closed : List Bookend) (rows : List Row) :
    (⟨opened.map (Standing.opening start) ++ rows.map .row ++ closed.map (Standing.closing stop),
      none⟩ : BookendRead).rows = rows := by
  have hnone : ∀ l : List Bookend, l.filterMap (fun _ => (none : Option Row)) = [] := by simp
  simp [BookendRead.rows, List.filterMap_map, Function.comp_def, Standing.opening,
    Standing.closing, hnone]

/-- Together, the rows after the start are reported, of those of all series under the limit. -/
theorem bookendsCombined_rows (hb : db.backend.ReadsFrom a Intact) (points : List Point)
    {start stop : Timestamp} {limit : Option Int} {l : Option Nat}
    (hargs : checkArguments (some start) (some stop) limit = .ok (⟨some start, some stop⟩, l))
    {rows : List Row}
    (hrows : a.Answers (points.map Point.series) ⟨some start, some stop⟩ .ascending rows) {s : σ}
    (hs : Intact s) :
    let read := (db.bookendsCombined points start stop limit s).1
    read.failure = none ∧ read.rows = afterStart start (firstOf l rows) := by
  have hreports := rows_reports start stop ((seriesOf points).map fun id => a.standing id start)
    ((seriesOf points).map fun id => Standing.after (a.standing id start)
      ((afterStart start (firstOf l rows)).filter fun r => r.series = id))
    (afterStart start (firstOf l rows))
  rw [List.map_map, List.map_map] at hreports
  rw [bookendsCombined_spec hb points hargs hrows hs]
  exact ⟨rfl, hreports⟩

/-- Point by point, the rows of each series after the start are reported, of those under the
limit. -/
theorem bookendsPerPoint_rows (hb : db.backend.ReadsFrom a Intact) (points : List Point)
    {start stop : Timestamp} {limit : Option Int} {l : Option Nat}
    (hargs : checkArguments (some start) (some stop) limit = .ok (⟨some start, some stop⟩, l))
    {s : σ} (hs : Intact s) :
    let read := (db.bookendsPerPoint points start stop limit s).1
    read.failure = none ∧ read.rows = (seriesOf points).flatMap fun id =>
      afterStart start (firstOf l (a.rows id ⟨some start, some stop⟩ .ascending)) := by
  rw [bookendsPerPoint_spec hb points hargs hs]
  refine ⟨rfl, ?_⟩
  rw [BookendRead.rows, List.filterMap_flatMap, List.flatMap_def, List.flatMap_def]
  refine congrArg List.flatten (List.map_congr_left fun id _ => ?_)
  exact rows_reports start stop [a.standing id start] [Standing.after (a.standing id start) _] _

/-- The rows of one series are the answer of the archive to a read of it alone. -/
theorem answers_rows (a : Archive) (id : SeriesId) (w : Window) (d : Direction) :
    a.Answers [id] w d (a.rows id w d) where
  ordered := (Archive.pairwise_rows a id w d).imp fun h => Direction.compareRows_eq_lt.2 (.inl h)
  mem_iff r := by
    rw [Archive.mem_rows, List.mem_singleton]
    refine and_congr_right fun h => ?_
    rw [h]

/-- Of what is read series by series, the part of one series is what was read of it. -/
theorem filter_flatMap_series (rows : SeriesId → List Row)
    (hrows : ∀ id, ∀ r ∈ rows id, r.series = id) {ids : List SeriesId} (hnodup : ids.Nodup)
    {id : SeriesId} (hid : id ∈ ids) :
    (ids.flatMap rows).filter (fun r => r.series = id) = rows id := by
  have hown : ∀ id', ((rows id').filter fun r => r.series = id) =
      if id' = id then rows id' else [] := by
    intro id'
    split
    · rename_i he
      exact List.filter_eq_self.2 fun r hr => by simp [hrows id' r hr, he]
    · rename_i he
      exact List.filter_eq_nil_iff.2 fun r hr => by simp [hrows id' r hr, he]
  induction ids with
  | nil => simp at hid
  | cons first rest ih =>
    obtain ⟨hfirst, hrest⟩ := List.nodup_cons.1 hnodup
    rw [List.flatMap_cons, List.filter_append, hown]
    by_cases he : first = id
    · subst he
      have hothers : ((rest.flatMap rows).filter fun r => r.series = first) = [] := by
        rw [List.filter_eq_nil_iff]
        intro r hr
        obtain ⟨id', hid', hr⟩ := List.mem_flatMap.1 hr
        rw [hrows id' r hr, decide_eq_true_eq]
        exact fun h => hfirst (h ▸ hid')
      simp [hothers]
    · rw [if_neg he, List.nil_append]
      exact ih hrest ((List.mem_cons.1 hid).resolve_left (Ne.symm he))

/-- What bookend reads report is cut off where rows at the start have used up the limit: in either
read these count although they are not reported.  So the limit counts the reported rows alone
exactly where `LimitSparesRows` holds. -/
theorem bookends_limit_iff {db : Database Memory} (hdb : db.OverMemory) {m : Memory}
    (hscans : m.failingScans = 0) (points : List Point) {start stop : Timestamp}
    (hends : start ≤ stop) (limit : Option Nat) :
    let perPoint := (db.bookendsPerPoint points start stop (limit.map Int.ofNat) m).1
    let combined := (db.bookendsCombined points start stop (limit.map Int.ofNat) m).1
    perPoint.failure = none ∧ combined.failure = none ∧
    (∀ id ∈ points.map Point.series, ∀ rows,
      m.archive.Answers [id] ⟨some start, some stop⟩ .ascending rows →
      let reported := perPoint.rows.filter fun r => r.series = id
      reported = firstOf (limit.map (· - atStart start rows)) (afterStart start rows) ∧
        (reported = firstOf limit (afterStart start rows) ↔ LimitSparesRows start limit rows)) ∧
    ∀ rows, m.archive.Answers (points.map Point.series) ⟨some start, some stop⟩ .ascending rows →
      combined.rows = firstOf (limit.map (· - atStart start rows)) (afterStart start rows) ∧
        (combined.rows = firstOf limit (afterStart start rows) ↔ LimitSparesRows start limit rows) := by
  have hargs : checkArguments (some start) (some stop) (limit.map Int.ofNat) =
      .ok (⟨some start, some stop⟩, limit) :=
    checkArguments_eq_ok (fun f t hf ht => by
      obtain rfl := Option.some.inj hf
      obtain rfl := Option.some.inj ht
      exact hends) limit
  have hb := hdb.readsFrom m.archive
  have hintact : Memory.Intact m.archive m := ⟨hscans, rfl⟩
  obtain ⟨hfailure, hreported⟩ := bookendsPerPoint_rows hb points hargs hintact
  have hcut : ∀ {series rows}, m.archive.Answers series ⟨some start, some stop⟩ .ascending rows →
      afterStart start (firstOf limit rows) =
        firstOf (limit.map (· - atStart start rows)) (afterStart start rows) := fun hrows =>
    afterStart_firstOf (times_of_answers hrows).1
      (fun r hr => start_le_of_contains ((hrows.mem_iff r).1 hr).2.1) limit
  refine ⟨hfailure, ?_, fun id hid rows hrows => ?_, fun rows hrows => ?_⟩
  · obtain ⟨rows, hrows, -⟩ := m.archive.exists_answer points ⟨some start, some stop⟩ .ascending
    exact (bookendsCombined_rows hb points hargs hrows hintact).1
  · have hpart := filter_flatMap_series
      (fun id => afterStart start
        (firstOf limit (m.archive.rows id ⟨some start, some stop⟩ .ascending)))
      (fun id r hr =>
        (Archive.mem_rows.1 ((firstOf_sublist limit _).subset (List.mem_filter.1 hr).1)).1)
      (SortedMap.nodup_distinct _) (SortedMap.mem_distinct.2 hid)
    obtain rfl := hrows.unique (answers_rows m.archive id ⟨some start, some stop⟩ .ascending)
    have hpart := (congrArg (List.filter fun r => r.series = id) hreported).trans
      (hpart.trans (hcut hrows))
    exact ⟨hpart, by rw [← firstOf_sub_eq_iff, ← hpart]⟩
  · have hall := (bookendsCombined_rows hb points hargs hrows hintact).2.trans (hcut hrows)
    exact ⟨hall, by rw [← firstOf_sub_eq_iff, ← hall]⟩

/-- One series with a value at the start and two after it. -/
def startedStore : Memory :=
  { Memory.new with
    archive := Archive.empty.putAll
      [(1, ⟨0, .state 1, none⟩), (1, ⟨5, .state 2, none⟩), (1, ⟨7, .state 3, none⟩)] }

/-- A store in memory read in chunks of a thousand. -/
def plainDatabase : Database Memory := ⟨Memory.backend, .all, 1000, 10, by decide, by decide⟩

theorem bookends_limit_iff_value_at_start :
    let rows := startedStore.archive.rows 1 ⟨some 0, some 10⟩ .ascending
    let read := (plainDatabase.bookendsCombined [⟨1, 1⟩] 0 10 (some 1) startedStore).1
    read.failure = none ∧ read.rows = (afterStart 0 rows).take (1 - atStart 0 rows) ∧
      (read.rows = (afterStart 0 rows).take 1 ↔ LimitSparesRows 0 (some 1) rows) := by
  intro rows read
  have hdb : plainDatabase.OverMemory := .inl rfl
  have hscans : startedStore.failingScans = 0 := rfl
  have hends : (0 : Timestamp) ≤ 10 := by decide
  obtain ⟨-, hfailure, -, hcombined⟩ := bookends_limit_iff hdb hscans [⟨1, 1⟩] hends (some 1)
  exact ⟨hfailure, hcombined rows (answers_rows _ 1 _ _)⟩

/-- With a value at the start, a limit of one reports no row at all. -/
theorem bookends_limit_one_reports_none :
    (plainDatabase.bookendsPerPoint [⟨1, 1⟩] 0 10 (some 1) startedStore).1.rows = [] ∧
      (plainDatabase.bookendsCombined [⟨1, 1⟩] 0 10 (some 1) startedStore).1.rows = [] ∧
      (afterStart 0 (startedStore.archive.rows 1 ⟨some 0, some 10⟩ .ascending)).take 1 =
        [⟨1, 5, .state 2, none⟩] := by
  decide

end Database

end Historian
