import Historian.Proofs.Read.Combined
import Historian.Proofs.Read.SweepingMerge
import Historian.Proofs.Read.SweepingStreams

/-!
# Reads over a store that changes

A read sweeps over the window of every series that it is asked for: over one after the other, or over
all of them by time.

* `Database.drainInTurn_tracked`, `Database.drainMerged_tracked` — reads with a receiver, which may
  change the store after every row.
* `Database.stream_tracked` — reads that are driven, between whose calls the store may change.
-/

set_option autoImplicit false

namespace Historian

/-- The order of a combined read: by time as the direction meets it, and then by series. -/
abbrev Direction.MeetsFirst (d : Direction) (x y : Row) : Prop := d.compareRows x y = .lt

namespace Direction

variable {d : Direction}

theorem turnsTo_of_compareTimes {x r : Row} (hseries : x.series = r.series)
    (htimes : d.compareTimes x.time r.time = .lt) : d.TurnsTo x r := .inr ⟨hseries, htimes⟩

theorem compareTimes_of_turnsTo {x r : Row} (hseries : x.series = r.series) (h : d.TurnsTo x r) :
    d.compareTimes x.time r.time = .lt := by
  rcases h with hlt | ⟨-, htimes⟩
  · rw [hseries] at hlt
    exact absurd hlt (UInt64.lt_irrefl _)
  · exact htimes

theorem compareTimes_of_compareRows {x r : Row} (hseries : x.series = r.series)
    (h : d.compareRows x r = .lt) : d.compareTimes x.time r.time = .lt := by
  rcases Direction.compareRows_eq_lt.1 h with htimes | ⟨-, hlt⟩
  · exact htimes
  · rw [hseries] at hlt
    exact absurd hlt (UInt64.lt_irrefl _)

end Direction

/-- Rows that a read had no budget left for are cut off by its limit. -/
theorem cutOff_of_full {before : Row → Row → Prop} {limit : Option Nat} {times : Nat}
    {rows : List Row} {r : Row} (hfull : rows.length = Database.budget limit times)
    (hrows : rows.length ≤ times) (hall : ∀ x ∈ rows, before x r) : CutOff before limit rows r := by
  cases limit with
  | none =>
    have hmore : rows.length = times + 1 := hfull
    omega
  | some l =>
    have hl : rows.length = l := hfull
    exact ⟨l, rfl, by omega, fun x hx => hall x (List.mem_of_mem_take hx)⟩

/-- Of each series, rows in order are no more than the times of the window. -/
theorem length_le_of_ordered {before : Row → Row → Prop} {d : Direction} {w : Window}
    (htimes : ∀ x y, x.series = y.series → before x y → d.compareTimes x.time y.time = .lt)
    {series : List SeriesId} : ∀ {rows : List Row}, rows.Pairwise before →
      (∀ r ∈ rows, r.series ∈ series ∧ w.contains r.time = true) →
      rows.length ≤ series.length * w.width := by
  induction series with
  | nil =>
    intro rows _ hin
    obtain rfl : rows = [] := List.eq_nil_iff_forall_not_mem.2 fun r hr => by simpa using hin r hr
    simp
  | cons s rest ih =>
    intro rows hordered hin
    have hself : (rows.filter fun r => r.series = s).length ≤ w.width := by
      refine Archive.length_le_width (d := d) ?_ fun r hr => (hin r (List.mem_filter.1 hr).1).2
      refine (hordered.filter _).imp_of_mem fun {x y} hx hy hxy => htimes x y ?_ hxy
      have hx : x.series = s := by simpa using (List.mem_filter.1 hx).2
      have hy : y.series = s := by simpa using (List.mem_filter.1 hy).2
      rw [hx, hy]
    have hothers : (rows.filter fun r => ¬ decide (r.series = s) = true).length ≤
        rest.length * w.width := by
      refine ih (hordered.filter _) fun r hr => ?_
      obtain ⟨hr, hne⟩ := List.mem_filter.1 hr
      have hne : r.series ≠ s := by simpa using hne
      exact ⟨(List.mem_cons.1 (hin r hr).1).resolve_left hne, (hin r hr).2⟩
    rw [List.length_eq_countP_add_countP fun r : Row => decide (r.series = s),
      List.countP_eq_length_filter, List.countP_eq_length_filter, List.length_cons, Nat.succ_mul]
    omega

/-! ## Reads with a receiver -/

namespace Database

variable {σ : Type} {db : Database σ} {contents : Nat → Archive} {At : Nat → σ → Prop}
  {react : Reaction σ} {w : Window} {d : Direction} {limit : Option Nat}

theorem drain_tracked (hb : ∀ i, db.backend.ReadsFrom (contents i) (At i))
    (hreact : ∀ i r s, At i s → At (i + 1) (react (i + 1) r s)) (series : SeriesId) (w : Window)
    (limit : Option Nat) (d : Direction) {i : Nat} {s : σ} (hat : At i s) :
    ∃ rows s', db.drain series w limit d react i s = (⟨rows, none⟩, s') ∧ At (i + rows.length) s' ∧
      Tracked contents d.TurnsTo (CutOff d.TurnsTo limit) i
        (fun r => r.series = series ∧ w.contains r.time = true) rows := by
  have hsweeps : Sweeps contents d.TurnsTo (fun _ _ => False) (fun _ _ => False)
      (Cursor.next db.backend) At (Cursor.outlook contents d) :=
    Cursor.sweeps hb fun _ _ => Direction.turnsTo_of_compareTimes
  obtain ⟨rows, s', hdeliver, hat', -, htracked⟩ :=
    deliverRows_tracked hsweeps hreact (fun _ _ _ h => h) (budget limit w.width)
      (.fresh (Cursor.onWindow_ok series w (db.limitedChunk_pos limit))) hat
  have hinside : ∀ r ∈ rows, r.series = series ∧ w.contains r.time = true := fun r hr =>
    Cursor.onWindow_ahead.1 (htracked.inside r hr)
  have hlength : rows.length ≤ [series].length * w.width :=
    length_le_of_ordered (fun _ _ => Direction.compareTimes_of_turnsTo) htracked.ordered fun r hr => by
      simpa using hinside r hr
  refine ⟨rows, s', hdeliver, hat', htracked.mono (fun r => Cursor.onWindow_ahead) ?_⟩
  rintro r - (hgone | ⟨hfull, hall⟩)
  · exact hgone.elim
  · exact cutOff_of_full hfull (by simpa using hlength) hall

/-- A read point by point is one series and then the next. -/
theorem drainInTurn_tracked (hb : ∀ i, db.backend.ReadsFrom (contents i) (At i))
    (hreact : ∀ i r s, At i s → At (i + 1) (react (i + 1) r s)) {series : List SeriesId}
    (hseries : series.Pairwise (· < ·)) (w : Window) (limit : Option Nat) (d : Direction) :
    ∀ {i : Nat} {s : σ}, At i s →
    ∃ rows s', deliverInTurn (fun s before => db.drain s w limit d react before) i series s =
        (⟨rows, none⟩, s') ∧
      Tracked contents d.TurnsTo (CutInTurn d.TurnsTo limit) i
        (fun r => r.series ∈ series ∧ w.contains r.time = true) rows := by
  induction series with
  | nil =>
    intro i s _
    exact ⟨[], s, rfl, .nil fun r hr => absurd hr.1 (by simp)⟩
  | cons id rest ih =>
    intro i s hat
    obtain ⟨hid, hrest⟩ := List.pairwise_cons.1 hseries
    obtain ⟨rows, s₁, hdrain, hat₁, htracked⟩ := drain_tracked hb hreact id w limit d hat
    obtain ⟨rows', s₂, hdeliver, htracked'⟩ := ih hrest hat₁
    have hlater : ∀ r : Row, r.series ∈ rest → r.series ≠ id := fun r hr he => by
      have := hid r.series hr
      rw [he] at this
      exact absurd this (UInt64.lt_irrefl _)
    refine ⟨rows ++ rows', s₂, by simp only [deliverInTurn, hdrain, hdeliver],
      (htracked.append htracked' ?_ ?_ ?_).mono (fun r => ?_) fun r _ h => h⟩
    · rintro x y ⟨hx, -⟩ ⟨hy, -⟩
      exact .inl (hx ▸ hid y.series hy)
    · rintro r ⟨hr, -⟩ hgone
      have hall : rows.filter (fun x => x.series = r.series) = rows := by
        refine List.filter_eq_self.2 fun x hx => ?_
        simp [(htracked.inside x hx).1, hr]
      refine CutInTurn.append ?_ rows'
      rw [CutInTurn, hall]
      exact hgone
    · rintro r ⟨hr, -⟩ hgone
      have hnone : rows.filter (fun x => x.series = r.series) = [] := by
        refine List.filter_eq_nil_iff.2 fun x hx => ?_
        simp [(htracked.inside x hx).1, (hlater r hr).symm]
      rw [CutInTurn, List.filter_append, hnone, List.nil_append]
      exact hgone
    · rw [List.mem_cons, or_and_right]

/-- Rows of series at different places are not at one place of the merge. -/
theorem own_disjoint {series : List SeriesId} (hseries : series.Nodup) (j k : Nat) (x y : Row)
    (hjk : j ≠ k) (hx : series[j]? = some x.series) (hy : series[k]? = some y.series) :
    d.compareRows x y ≠ .eq := by
  intro heq
  rw [← (Direction.compareRows_eq_eq.1 heq).2, ← hx] at hy
  obtain ⟨hj, -⟩ := List.getElem?_eq_some_iff.1 hx
  exact hjk ((List.getElem?_inj hj hseries).1 hy.symm)

/-- What a merge of new sources, each on the window of a series, has ahead. -/
theorem newMerge_ahead {τ : Type} {V : Outlook τ} {series : List SeriesId} {source : SeriesId → τ}
    (hsource : ∀ s r, V.ahead (source s) r ↔ r.series = s ∧ w.contains r.time = true) {r : Row} :
    Merge.Ahead V (Merge.new (series.map source)) r ↔
      r.series ∈ series ∧ w.contains r.time = true := by
  constructor
  · rintro ⟨c, hc, hr⟩
    obtain ⟨s, hs, rfl⟩ := List.mem_map.1 hc
    obtain ⟨rfl, hin⟩ := (hsource s r).1 hr
    exact ⟨hs, hin⟩
  · rintro ⟨hs, hin⟩
    exact ⟨_, List.mem_map.2 ⟨_, hs, rfl⟩, (hsource _ r).2 ⟨rfl, hin⟩⟩

/-- A merge of such sources has given nothing, and each of them has a series of its own. -/
theorem newMerge_ok {τ : Type} {V : Outlook τ} {series : List SeriesId} {source : SeriesId → τ}
    {i : Nat} (hok : ∀ s, V.ok i [] (source s))
    (hsource : ∀ s r, V.ahead (source s) r ↔ r.series = s ∧ w.contains r.time = true) :
    (Merge.outlook contents d.compareRows (fun j r => series[j]? = some r.series) V).ok i []
      (Merge.new (series.map source)) := by
  refine .unasked (fun j t ht => ?_) fun j t ht r hr => ?_
  · rw [List.getElem?_map, Option.map_eq_some_iff] at ht
    obtain ⟨s, -, rfl⟩ := ht
    exact hok s
  · rw [List.getElem?_map, Option.map_eq_some_iff] at ht
    obtain ⟨s, hs, rfl⟩ := ht
    rw [hs, ((hsource s r).1 hr).1]

theorem drainMerged_tracked (hb : ∀ i, db.backend.ReadsFrom (contents i) (At i))
    (hreact : ∀ i r s, At i s → At (i + 1) (react (i + 1) r s)) {series : List SeriesId}
    (hseries : series.Nodup) (w : Window) (limit : Option Nat) (d : Direction) {s : σ}
    (hat : At 0 s) :
    ∃ rows s', db.drainMerged series w limit d react s = (⟨rows, none⟩, s') ∧
      Tracked contents d.MeetsFirst (CutOff d.MeetsFirst limit) 0
        (fun r => r.series ∈ series ∧ w.contains r.time = true) rows := by
  have hchunk := db.combinedChunk_pos limit series.length
  have hsource : Sweeps contents d.MeetsFirst (fun _ _ => False) (fun _ _ => False)
      (Cursor.next db.backend) At (Cursor.outlook contents d) :=
    Cursor.sweeps hb fun _ _ _ htimes => Direction.compareRows_eq_lt.2 (.inl htimes)
  have hsweeps := Merge.sweeps none hsource (own_disjoint hseries) fun _ _ hgone => hgone.elim
  have hcursor : ∀ s r, (Cursor.outlook contents d).ahead
      (Cursor.onWindow s w (db.combinedChunk limit series.length) d) r ↔
        r.series = s ∧ w.contains r.time = true := fun s r => Cursor.onWindow_ahead
  obtain ⟨rows, s', hdeliver, -, -, htracked⟩ :=
    deliverRows_tracked hsweeps hreact (fun _ more _ h => h.append more)
      (budget limit (series.length * w.width))
      (.fresh (newMerge_ok (fun s => Cursor.onWindow_ok s w hchunk) hcursor)) hat
  have hlength : rows.length ≤ series.length * w.width :=
    length_le_of_ordered (fun _ _ => Direction.compareTimes_of_compareRows) htracked.ordered fun r hr =>
      (newMerge_ahead hcursor).1 (htracked.inside r hr)
  refine ⟨rows, s', hdeliver, htracked.mono (fun r => newMerge_ahead hcursor) ?_⟩
  rintro r - (⟨l, hl, -⟩ | ⟨hfull, hall⟩)
  · cases hl
  · exact cutOff_of_full hfull hlength hall

/-! ## Reads that are driven -/

/-- A stream over a body that sweeps hands over rows until it has been asked often enough, unless
the others are lost. -/
theorem stream_tracked (hb : ∀ i, db.backend.ReadsFrom (contents i) (At i))
    (hreact : ∀ i r s, At i s → At (i + 1) (react (i + 1) r s)) {before : Row → Row → Prop}
    {lost : List Row → Row → Prop} {B : Outlook StreamBody}
    (hbody : Sweeps contents before lost lost (StreamBody.next db.backend) At B)
    (hmore : ∀ given more r, lost given r → lost (given ++ more) r) {body : StreamBody}
    (hok : B.ok 0 [] body) (lease : Lease) (total : Option Nat) (calls : Nat) {s : σ}
    (hat : At 0 s) :
    ∃ rows s', deliverRows (Stream.next db.backend) react calls 0 (.new body lease total) s =
        (⟨rows, none⟩, s') ∧
      Tracked contents before
        (fun rows r => Stream.Lost before lost total rows r ∨ rows.length = calls) 0
        (B.ahead body) rows := by
  have hlost : ∀ given more r, Stream.Lost before lost total given r →
      Stream.Lost before lost total (given ++ more) r := fun given more r hgone =>
    hgone.imp (hmore given more r) (CutOff.append · more)
  have hopen : (Stream.outlook B total).ok 0 [] (.new body lease total) :=
    ⟨body, rfl, hok, by simp [Stream.new]⟩
  obtain ⟨rows, s', hdeliver, -, -, htracked⟩ :=
    deliverRows_tracked (Stream.sweeps total hb hbody) hreact hlost calls (.fresh hopen) hat
  refine ⟨rows, s', hdeliver, htracked.mono (fun r => ?_) fun r _ hgone => hgone.imp_right (·.1)⟩
  exact ⟨fun ⟨_, he, hr⟩ => Option.some.inj he ▸ hr, fun hr => ⟨body, rfl, hr⟩⟩

/-- The cursors of a stream that is being opened. -/
def openCursors (db : Database σ) (points : List Point) (w : Window) (limit : Option Nat)
    (d : Direction) : List LimitedCursor :=
  (seriesOf points).map fun series => ⟨.onWindow series w (db.limitedChunk limit) d, limit⟩

theorem openCursor_ok {i : Nat} (db : Database σ) (limit : Option Nat) (series : SeriesId) :
    (LimitedCursor.outlook (Cursor.outlook contents d) limit).ok i []
      ⟨.onWindow series w (db.limitedChunk limit) d, limit⟩ :=
  ⟨Cursor.onWindow_ok series w (db.limitedChunk_pos limit), by simp⟩

theorem openCursor_ahead (db : Database σ) (limit : Option Nat) (series : SeriesId) (r : Row) :
    (LimitedCursor.outlook (Cursor.outlook contents d) limit).ahead
        ⟨.onWindow series w (db.limitedChunk limit) d, limit⟩ r ↔
      r.series = series ∧ w.contains r.time = true := Cursor.onWindow_ahead

theorem openCursor_sweeps (hb : ∀ i, db.backend.ReadsFrom (contents i) (At i))
    {before : Row → Row → Prop} (limit : Option Nat)
    (hbefore : ∀ x r : Row, x.series = r.series → d.compareTimes x.time r.time = .lt → before x r) :
    Sweeps contents before (fun _ _ => False) (CutOff before limit)
      (LimitedCursor.next db.backend) At
      (LimitedCursor.outlook (Cursor.outlook contents d) limit) :=
  LimitedCursor.sweeps (Cursor.sweeps hb hbefore)

/-- The cursors of a stream stand in the order of their series. -/
theorem openCursors_turns (db : Database σ) (points : List Point) :
    (StreamBody.turns (LimitedCursor.outlook (Cursor.outlook contents d) limit)).ok 0 []
      (db.openCursors points w limit d) := by
  refine ⟨(seriesOf points).map fun series =>
    (series, ⟨.onWindow series w (db.limitedChunk limit) d, limit⟩), ?_, ?_, fun turn ht => ?_⟩
  · rw [List.map_map]
    rfl
  · exact List.pairwise_map.2 (pairwise_seriesOf points)
  · obtain ⟨series, -, rfl⟩ := List.mem_map.1 ht
    exact ⟨openCursor_ok db limit series, fun r hr => ((openCursor_ahead db limit series r).1 hr).1⟩

theorem openCursors_ahead (db : Database σ) (points : List Point) (r : Row) :
    (StreamBody.turns (LimitedCursor.outlook (Cursor.outlook contents d) limit)).ahead
        (db.openCursors points w limit d) r ↔
      r.series ∈ seriesOf points ∧ w.contains r.time = true := by
  constructor
  · rintro ⟨c, hc, hr⟩
    obtain ⟨s, hs, rfl⟩ := List.mem_map.1 hc
    obtain ⟨rfl, hin⟩ := (openCursor_ahead db limit s r).1 hr
    exact ⟨hs, hin⟩
  · rintro ⟨hs, hin⟩
    exact ⟨_, List.mem_map.2 ⟨_, hs, rfl⟩, (openCursor_ahead db limit _ r).2 ⟨rfl, hin⟩⟩

end Database

end Historian
