import Historian.Database.Streams
import Historian.Proofs.Read.Source
import Historian.Proofs.Store.Stored

/-!
# Sources over a store that changes

A source that is read while the store changes cannot promise a list of rows.  What it can promise is
that it sweeps over its places once, in order: `Outlook.ahead` are the places that it has still to
come to, and what stands there all the time is not passed over.

The moments of a read are numbered by the rows that have been handed over; `contents i` is what the
store holds at moment `i`.

* `Advance` — what one call of a source does, said once for all sources.
* `deliverRows_tracked` — what a whole read does, by induction on its calls.
* `Cursor.sweeps` — a cursor sweeps over its window, whatever stands in its buffer by now.
* `LimitedCursor.sweeps` — so does one with a limit, which cuts off what comes after it.
-/

set_option autoImplicit false

namespace Historian

variable {σ τ : Type}

/-- How a source is seen at a moment of a read. -/
structure Outlook (τ : Type) where
  /-- This may be the source at a moment at which it has given these rows. -/
  ok : Nat → List Row → τ → Prop
  /-- The source has still to come to the place of the row. -/
  ahead : τ → Row → Prop

/-- The source has passed the rows that it has given. -/
structure Outlook.Stands (V : Outlook τ) (before : Row → Row → Prop) (i : Nat) (given : List Row)
    (t : τ) : Prop where
  ok : V.ok i given t
  past : ∀ x ∈ given, ∀ r, V.ahead t r → before x r

section

variable (contents : Nat → Archive) (before : Row → Row → Prop)

/-- What a call at moment `i` does to a source that has given some rows.  Rows that are held may be
`skipped` by a call that gives a row, and `cut` by one that says that the source has ended. -/
inductive Advance (skipped cut : List Row → Row → Prop) (V : Outlook τ) (i : Nat)
    (given : List Row) (t : τ) : Pulled Row → τ → Prop
  | value {x : Row} {t' : τ} (ok : V.ok i (given ++ [x]) t') (ahead : V.ahead t x)
      (stored : ∃ k ≤ i, (contents k).Holds x)
      (on : ∀ r, V.ahead t' r → V.ahead t r ∧ before x r)
      (kept : ∀ r, (contents i).Holds r → V.ahead t r →
        r = x ∨ V.ahead t' r ∨ skipped (given ++ [x]) r) :
      Advance skipped cut V i given t (.value x) t'
  | ended {t' : τ} (kept : ∀ r, (contents i).Holds r → V.ahead t r → cut given r) :
      Advance skipped cut V i given t .ended t'

/-- Every call advances the source, which may stay as it is while the store changes. -/
structure Sweeps (skipped cut : List Row → Row → Prop) (pull : τ → StateM σ (Pulled Row × τ))
    (At : Nat → σ → Prop) (V : Outlook τ) : Prop where
  step : ∀ {i : Nat} {given : List Row} {t : τ} {s : σ}, V.Stands before i given t → At i s →
    ∃ item t' s', pull t s = ((item, t'), s') ∧ At i s' ∧
      Advance contents before skipped cut V i given t item t'
  later : ∀ {i : Nat} {given : List Row} {t : τ}, V.ok i given t → V.ok (i + 1) given t

/-- What a read from moment `i` on has handed over: rows in order, each of which lay ahead and was
held at some moment until then; and of the rows ahead none that was held at every moment is missing,
unless it is `lost`. -/
structure Tracked (lost : List Row → Row → Prop) (i : Nat) (ahead : Row → Prop)
    (rows : List Row) : Prop where
  ordered : rows.Pairwise before
  inside : ∀ r ∈ rows, ahead r
  stored : ∀ (n : Nat) r, rows[n]? = some r → ∃ k ≤ i + n, (contents k).Holds r
  complete : ∀ r, ahead r → (∀ n ≤ rows.length, (contents (i + n)).Holds r) →
    r ∈ rows ∨ lost rows r

end

variable {contents : Nat → Archive} {before : Row → Row → Prop}
  {skipped cut lost : List Row → Row → Prop} {At : Nat → σ → Prop}
  {pull : τ → StateM σ (Pulled Row × τ)} {V : Outlook τ}

/-- A source that has given nothing has passed nothing. -/
theorem Outlook.Stands.fresh {i : Nat} {t : τ} (h : V.ok i [] t) : V.Stands before i [] t :=
  ⟨h, by simp⟩

/-- The row that a call gives is passed like those before it. -/
theorem Outlook.Stands.next {i : Nat} {given : List Row} {t t' : τ} {x : Row}
    (h : V.Stands before i given t) (ok : V.ok i (given ++ [x]) t')
    (on : ∀ r, V.ahead t' r → V.ahead t r ∧ before x r) :
    V.Stands before i (given ++ [x]) t' where
  ok := ok
  past y hy r hr := by
    rcases List.mem_append.1 hy with hy | hy
    · exact h.past y hy r (on r hr).1
    · obtain rfl := List.mem_singleton.1 hy
      exact (on r hr).2

theorem Sweeps.stands_later (h : Sweeps contents before skipped cut pull At V) {i : Nat}
    {given : List Row} {t : τ} (hs : V.Stands before i given t) : V.Stands before (i + 1) given t :=
  ⟨h.later hs.ok, hs.past⟩

/-- A source that has fetched something before its answer has lost nothing by that but what it is
allowed to. -/
theorem Advance.of_fetched {i : Nat} {given : List Row} {t u t' : τ} {item : Pulled Row}
    (h : Advance contents before skipped cut V i given u item t')
    (back : ∀ r, V.ahead u r → V.ahead t r)
    (fetched : ∀ r, (contents i).Holds r → V.ahead t r →
      V.ahead u r ∨ cut given r ∧ ∀ x, skipped (given ++ [x]) r) :
    Advance contents before skipped cut V i given t item t' := by
  cases h with
  | value ok ahead stored on kept =>
    refine .value ok (back _ ahead) stored (fun r hr => (on r hr).imp_left (back r)) ?_
    intro r hheld hr
    rcases fetched r hheld hr with hr | ⟨-, hgone⟩
    · exact kept r hheld hr
    · exact .inr (.inr (hgone _))
  | ended kept =>
    refine .ended fun r hheld hr => ?_
    rcases fetched r hheld hr with hr | ⟨hgone, -⟩
    · exact kept r hheld hr
    · exact hgone

/-! ## Whole reads -/

theorem Tracked.nil {i : Nat} {ahead : Row → Prop}
    (h : ∀ r, ahead r → (contents i).Holds r → lost [] r) :
    Tracked contents before lost i ahead [] where
  ordered := .nil
  inside := by simp
  stored := by simp
  complete r hr hheld := .inr (h r hr (hheld 0 (Nat.zero_le _)))

/-- A read that goes on after a change of the store. -/
theorem Tracked.cons {lost' : List Row → Row → Prop} {i : Nat} {ahead ahead' : Row → Prop} {x : Row}
    {rows : List Row} (h : Tracked contents before lost' (i + 1) ahead' rows) (hx : ahead x)
    (stored : ∃ k ≤ i, (contents k).Holds x) (on : ∀ r, ahead' r → ahead r ∧ before x r)
    (kept : ∀ r, (contents i).Holds r → ahead r → r = x ∨ ahead' r ∨ lost (x :: rows) r)
    (hlost : ∀ r, ahead' r → lost' rows r → lost (x :: rows) r) :
    Tracked contents before lost i ahead (x :: rows) where
  ordered := List.pairwise_cons.2 ⟨fun r hr => (on r (h.inside r hr)).2, h.ordered⟩
  inside r hr := by
    rcases List.mem_cons.1 hr with rfl | hr
    · exact hx
    · exact (on r (h.inside r hr)).1
  stored n r hn := by
    cases n with
    | zero =>
      obtain rfl := Option.some.inj hn
      exact stored
    | succ n =>
      obtain ⟨k, hk, hheld⟩ := h.stored n r hn
      exact ⟨k, by omega, hheld⟩
  complete r hr hheld := by
    rcases kept r (hheld 0 (Nat.zero_le _)) hr with rfl | hahead | hgone
    · exact .inl List.mem_cons_self
    · have hrest : ∀ n ≤ rows.length, (contents (i + 1 + n)).Holds r := by
        intro n hn
        have := hheld (n + 1) (by simpa using hn)
        rwa [show i + 1 + n = i + (n + 1) by omega]
      rcases h.complete r hahead hrest with hmem | hgone
      · exact .inl (List.mem_cons_of_mem _ hmem)
      · exact .inr (hlost r hahead hgone)
    · exact .inr hgone

theorem Tracked.mono {lost' : List Row → Row → Prop} {i : Nat} {ahead ahead' : Row → Prop}
    {rows : List Row} (h : Tracked contents before lost i ahead rows)
    (hahead : ∀ r, ahead r ↔ ahead' r) (hlost : ∀ r, ahead r → lost rows r → lost' rows r) :
    Tracked contents before lost' i ahead' rows where
  ordered := h.ordered
  inside r hr := (hahead r).1 (h.inside r hr)
  stored := h.stored
  complete r hr hheld := by
    have hr := (hahead r).2 hr
    exact (h.complete r hr hheld).imp_right (hlost r hr)

/-- One read and then another, of places that come after those of the first. -/
theorem Tracked.append {lost' lost'' : List Row → Row → Prop} {i : Nat} {ahead ahead' : Row → Prop}
    {rows rows' : List Row} (h : Tracked contents before lost i ahead rows)
    (h' : Tracked contents before lost' (i + rows.length) ahead' rows')
    (hcross : ∀ x y, ahead x → ahead' y → before x y)
    (hlost : ∀ r, ahead r → lost rows r → lost'' (rows ++ rows') r)
    (hlost' : ∀ r, ahead' r → lost' rows' r → lost'' (rows ++ rows') r) :
    Tracked contents before lost'' i (fun r => ahead r ∨ ahead' r) (rows ++ rows') where
  ordered := List.pairwise_append.2 ⟨h.ordered, h'.ordered, fun x hx y hy =>
    hcross x y (h.inside x hx) (h'.inside y hy)⟩
  inside r hr := (List.mem_append.1 hr).imp (h.inside r) (h'.inside r)
  stored n r hn := by
    by_cases hlt : n < rows.length
    · rw [List.getElem?_append_left hlt] at hn
      exact h.stored n r hn
    · rw [List.getElem?_append_right (by omega)] at hn
      obtain ⟨k, hk, hheld⟩ := h'.stored _ r hn
      exact ⟨k, by omega, hheld⟩
  complete r hr hheld := by
    rw [List.length_append] at hheld
    rcases hr with hr | hr
    · rcases h.complete r hr fun n hn => hheld n (by omega) with hmem | hgone
      · exact .inl (List.mem_append_left _ hmem)
      · exact .inr (hlost r hr hgone)
    · have hrest : ∀ n ≤ rows'.length, (contents (i + rows.length + n)).Holds r := fun n hn => by
        rw [Nat.add_assoc]
        exact hheld _ (by omega)
      rcases h'.complete r hr hrest with hmem | hgone
      · exact .inl (List.mem_append_right _ hmem)
      · exact .inr (hlost' r hr hgone)

/-- A read that asks a source up to `budget` times, the store being changed after every row.  What is
missing has been lost by the source, or the read stopped before it. -/
theorem deliverRows_tracked (h : Sweeps contents before lost lost pull At V) {react : Reaction σ}
    (hreact : ∀ i r s, At i s → At (i + 1) (react (i + 1) r s))
    (hlost : ∀ given more r, lost given r → lost (given ++ more) r) (budget : Nat) :
    ∀ {i : Nat} {given : List Row} {t : τ} {s : σ}, V.Stands before i given t → At i s →
      ∃ rows s', deliverRows pull react budget i t s = (⟨rows, none⟩, s') ∧
        At (i + rows.length) s' ∧ rows.length ≤ budget ∧
        Tracked contents before
          (fun rows r => lost (given ++ rows) r ∨ rows.length = budget ∧ ∀ x ∈ rows, before x r)
          i (V.ahead t) rows := by
  induction budget with
  | zero =>
    intro i given t s _ hat
    exact ⟨[], s, rfl, hat, Nat.le_refl 0, .nil fun r _ _ => .inr ⟨rfl, by simp⟩⟩
  | succ budget ih =>
    intro i given t s hstands hat
    obtain ⟨item, t', s', hpull, hat', hadvance⟩ := h.step hstands hat
    cases hadvance with
    | ended kept =>
      refine ⟨[], s', by simp only [deliverRows, hpull, Delivery.nothing], hat', Nat.zero_le _,
        .nil fun r hr hheld => .inl ?_⟩
      rw [List.append_nil]
      exact kept r hheld hr
    | @value x _ ok ahead stored on kept =>
      obtain ⟨rows, s'', hrest, hat'', hlength, htracked⟩ :=
        ih (h.stands_later (hstands.next ok on)) (hreact i x s' hat')
      refine ⟨x :: rows, s'', by simp only [deliverRows, hpull, hrest], ?_, ?_, ?_⟩
      · rwa [List.length_cons, show i + (rows.length + 1) = i + 1 + rows.length by omega]
      · rw [List.length_cons]
        omega
      · refine htracked.cons ahead stored on (fun r hheld hr => ?_) fun r hr hgone => ?_
        · refine (kept r hheld hr).imp_right (Or.imp_right fun hgone => .inl ?_)
          have := hlost _ rows r hgone
          rwa [List.append_assoc] at this
        · rw [List.append_assoc] at hgone
          refine hgone.imp_right fun hfull => ⟨by simp [hfull.1], fun y hy => ?_⟩
          rcases List.mem_cons.1 hy with rfl | hy
          · exact (on r hr).2
          · exact hfull.2 y hy

/-! ## Cursors -/

namespace Cursor

variable {b : Backend σ} {d : Direction}

/-- A cursor at moment `i`: what it has fetched was held at some moment and comes in order, and all
that it has still to fetch comes after it. -/
structure Ready (contents : Nat → Archive) (d : Direction) (i : Nat) (c : Cursor) : Prop where
  chunk_pos : 0 < c.chunk
  direction : c.direction = d
  series : ∀ r ∈ c.buffer, r.series = c.series
  ordered : c.buffer.Pairwise fun x y => d.compareTimes x.time y.time = .lt
  stored : ∀ r ∈ c.buffer, ∃ k ≤ i, (contents k).Holds r
  beyond : c.exhausted = false → ∀ r ∈ c.buffer, ∀ t, c.window.contains t = true →
    d.compareTimes r.time t = .lt

/-- The row has been fetched, or its place has not. -/
def Ahead (c : Cursor) (r : Row) : Prop :=
  r ∈ c.buffer ∨ c.exhausted = false ∧ r.series = c.series ∧ c.window.contains r.time = true

def outlook (contents : Nat → Archive) (d : Direction) : Outlook Cursor where
  ok i _ c := c.Ready contents d i
  ahead := Ahead

theorem Ahead.series_eq {c : Cursor} {i : Nat} (h : c.Ready contents d i) {r : Row}
    (hr : c.Ahead r) : r.series = c.series := by
  rcases hr with hr | ⟨-, hseries, -⟩
  · exact h.series r hr
  · exact hseries

theorem series_receive (c : Cursor) (rows : List Row) : (c.receive rows).series = c.series := by
  rw [receive]
  repeat' split
  all_goals rfl

theorem direction_receive (c : Cursor) (rows : List Row) :
    (c.receive rows).direction = c.direction := by
  rw [receive]
  repeat' split
  all_goals rfl

theorem fetches_receive (c : Cursor) (rows : List Row) : (c.receive rows).fetches = c.fetches := by
  rw [receive]
  repeat' split
  all_goals rfl

/-- After a chunk is left to fetch what lies in the window after the last of its rows. -/
theorem open_receive {c : Cursor} {rows : List Row} {last : Row} (hopen : c.exhausted = false)
    (hlast : rows.getLast? = some last) (hin : c.window.contains last.time = true)
    (t : Timestamp) :
    ((c.receive rows).exhausted = false ∧ (c.receive rows).window.contains t = true) ↔
      c.window.contains t = true ∧ c.direction.compareTimes last.time t = .lt := by
  obtain ⟨series, window, chunk, direction, buffer, exhausted, fetches⟩ := c
  obtain rfl : exhausted = false := hopen
  cases direction with
  | ascending =>
    cases hnext : Timestamp.next? last.time with
    | none =>
      have hlate : ¬ Direction.ascending.compareTimes last.time t = .lt := by
        intro hlt
        have := Timestamp.le_of_next?_eq_none hnext t
        rw [Direction.compareTimes, Std.compare_eq_lt] at hlt
        grind
      simp [receive, hlast, hnext, hlate]
    | some next =>
      have := Window.contains_from_next hin hnext t
      simp only [receive, hlast, hnext, this]
      simp
  | descending =>
    have := Window.contains_until_last hin t
    simp only [receive, hlast, this]
    simp

/-- A cursor that has taken a scan in: of what its window held nothing is missing. -/
structure Received (contents : Nat → Archive) (d : Direction) (i : Nat) (c c' : Cursor) : Prop where
  ready : c'.Ready contents d i
  ended : c'.buffer = [] → c'.exhausted = true
  back : ∀ r, c'.Ahead r → r.series = c.series ∧ c.window.contains r.time = true
  kept : ∀ r, (contents i).Holds r → r.series = c.series → c.window.contains r.time = true →
    c'.Ahead r

/-- A scan that finds nothing ends the cursor. -/
theorem receive_nil {i : Nat} {c : Cursor} (h : c.Ready contents d i)
    (hnone : (contents i).rows c.series c.window c.direction = []) :
    Received contents d i c (c.receive []) := by
  have hbuffer : (c.receive []).buffer = [] := buffer_receive c []
  have hended : (c.receive []).exhausted = true := rfl
  refine ⟨⟨?_, ?_, ?_, ?_, ?_, ?_⟩, fun _ => hended, fun r hr => ?_, fun r hheld hs hin => ?_⟩
  · rw [chunk_receive]
    exact h.chunk_pos
  · rw [direction_receive]
    exact h.direction
  · simp [hbuffer]
  · simp [hbuffer]
  · simp [hbuffer]
  · simp [hbuffer]
  · rcases hr with hr | ⟨hopen, -⟩
    · simp [hbuffer] at hr
    · simp [hended] at hopen
  · have hmem : r ∈ (contents i).rows c.series c.window c.direction :=
      Archive.mem_rows.2 ⟨hs, hin, hs ▸ hheld⟩
    simp [hnone] at hmem

/-- What goes after the last of some rows in order goes after all of them. -/
theorem lt_of_last_lt {rows : List Row} {last : Row} {t : Timestamp}
    (hordered : rows.Pairwise fun x y => d.compareTimes x.time y.time = .lt)
    (hlast : rows.getLast? = some last) (ht : d.compareTimes last.time t = .lt) :
    ∀ r ∈ rows, d.compareTimes r.time t = .lt := by
  intro r hr
  obtain ⟨front, rfl⟩ := List.getLast?_eq_some_iff.1 hlast
  rcases List.mem_append.1 hr with hr | hr
  · exact Std.TransCmp.lt_trans ((List.pairwise_append.1 hordered).2.2 r hr last (by simp)) ht
  · obtain rfl := List.mem_singleton.1 hr
    exact ht

/-- The rows of a scan that finds some are taken in. -/
theorem receive_last {i k : Nat} {c : Cursor} (h : c.Ready contents d i)
    (hopen : c.exhausted = false) {last : Row}
    (hlast : (((contents i).rows c.series c.window c.direction).take k).getLast? = some last) :
    Received contents d i c
      (c.receive (((contents i).rows c.series c.window c.direction).take k)) := by
  generalize hrows : ((contents i).rows c.series c.window c.direction).take k = rows at hlast ⊢
  have hbuffer := buffer_receive c rows
  have hfound : ∀ r ∈ rows, r.series = c.series ∧ c.window.contains r.time = true ∧
      (contents i).Holds r := by
    intro r hr
    rw [← hrows] at hr
    obtain ⟨hs, hin, hheld⟩ := Archive.mem_rows.1 (List.mem_of_mem_take hr)
    exact ⟨hs, hin, by rw [Archive.Holds, hs]; exact hheld⟩
  have hordered : rows.Pairwise fun x y => d.compareTimes x.time y.time = .lt := by
    have hall := Archive.pairwise_rows (contents i) c.series c.window c.direction
    rw [h.direction] at hall
    rw [← hrows, h.direction]
    exact hall.sublist (List.take_sublist _ _)
  have hmem : last ∈ rows := List.mem_of_getLast? hlast
  have hopened := open_receive hopen hlast (hfound last hmem).2.1
  refine ⟨⟨?_, ?_, ?_, ?_, ?_, ?_⟩, fun hnil => ?_, fun r hr => ?_, fun r hheld hs hin => ?_⟩
  · rw [chunk_receive]
    exact h.chunk_pos
  · rw [direction_receive]
    exact h.direction
  · rw [hbuffer, series_receive]
    exact fun r hr => (hfound r hr).1
  · rw [hbuffer]
    exact hordered
  · rw [hbuffer]
    exact fun r hr => ⟨i, Nat.le_refl i, (hfound r hr).2.2⟩
  · rw [hbuffer]
    intro hgoes r hr t ht
    have hlate := ((hopened t).1 ⟨hgoes, ht⟩).2
    rw [h.direction] at hlate
    exact lt_of_last_lt hordered hlast hlate r hr
  · rw [hbuffer] at hnil
    simp [hnil] at hmem
  · rcases hr with hr | ⟨hgoes, hs, hin⟩
    · rw [hbuffer] at hr
      exact ⟨(hfound r hr).1, (hfound r hr).2.1⟩
    · rw [series_receive] at hs
      exact ⟨hs, ((hopened r.time).1 ⟨hgoes, hin⟩).1⟩
  · -- a row that is held is among those fetched or comes after them
    have hrow : r ∈ (contents i).rows c.series c.window c.direction :=
      Archive.mem_rows.2 ⟨hs, hin, hs ▸ hheld⟩
    rw [← List.take_append_drop k ((contents i).rows c.series c.window c.direction), hrows] at hrow
    rcases List.mem_append.1 hrow with hrow | hrow
    · exact .inl (by rw [hbuffer]; exact hrow)
    · rw [← Archive.filter_rows_after (hrows.symm ▸ hlast), List.mem_filter] at hrow
      have hleft := (hopened r.time).2 ⟨hin, by simpa using hrow.2⟩
      exact .inr ⟨hleft.1, (series_receive c rows).symm ▸ hs, hleft.2⟩

theorem receive_ready {i k : Nat} {c : Cursor} (h : c.Ready contents d i) (hk : 0 < k)
    (hopen : c.exhausted = false) :
    Received contents d i c
      (c.receive (((contents i).rows c.series c.window c.direction).take k)) := by
  cases hlast : (((contents i).rows c.series c.window c.direction).take k).getLast? with
  | none =>
    have hnil := List.getLast?_eq_none_iff.1 hlast
    rw [hnil]
    exact receive_nil h ((List.take_eq_nil_iff.1 hnil).resolve_left (by omega))
  | some last => exact receive_last h hopen hlast

/-- A fetch leaves in the buffer what the store held, and passes nothing over that it held. -/
theorem fetch_ready {i k : Nat} {c : Cursor} {s s' : σ} (h : c.Ready contents d i)
    (hempty : ¬ (c.buffer ≠ [] ∨ c.exhausted = true)) (hk : 0 < k)
    (hscan : b.scan c.request s =
      (⟨((contents i).rows c.series c.window c.direction).take k, none⟩, s')) :
    ∃ c', c.fill b s = ((none, c'), s') ∧ c'.fetches = c.fetches + 1 ∧ c'.Ready contents d i ∧
      (c'.buffer = [] → c'.exhausted = true) ∧ (∀ r, c'.Ahead r → c.Ahead r) ∧
      ∀ r, (contents i).Holds r → c.Ahead r → c'.Ahead r := by
  obtain ⟨hbuffer, hopen⟩ : c.buffer = [] ∧ c.exhausted = false := by simpa using hempty
  have hcounted : ({ c with fetches := c.fetches + 1 } : Cursor).Ready contents d i :=
    ⟨h.chunk_pos, h.direction, h.series, h.ordered, h.stored, h.beyond⟩
  have hreceived := receive_ready hcounted hk hopen
  refine ⟨_, ?_, fetches_receive .., hreceived.ready, hreceived.ended,
    fun r hr => .inr ⟨hopen, hreceived.back r hr⟩, fun r hheld hr => ?_⟩
  · rw [fill, if_neg hempty]
    simp only [hscan]
  · rcases hr with hr | ⟨-, hs, hin⟩
    · simp [hbuffer] at hr
    · exact hreceived.kept r hheld hs hin

theorem fill_ready {i : Nat} (hb : b.ReadsFrom (contents i) (At i)) {c : Cursor} {s : σ}
    (h : c.Ready contents d i) (hat : At i s) :
    ∃ c' s', c.fill b s = ((none, c'), s') ∧ At i s' ∧ c'.Ready contents d i ∧
      (c'.buffer = [] → c'.exhausted = true) ∧ (∀ r, c'.Ahead r → c.Ahead r) ∧
      ∀ r, (contents i).Holds r → c.Ahead r → c'.Ahead r := by
  by_cases hready : c.buffer ≠ [] ∨ c.exhausted = true
  · exact ⟨c, s, if_pos hready, hat, h, fun hnil => hready.resolve_left (not_not_intro hnil),
      fun r hr => hr, fun r _ hr => hr⟩
  · obtain ⟨k, hk, hscan, hat'⟩ := hb.scan s hat c.series c.window c.chunk c.direction h.chunk_pos
    obtain ⟨c', hfill, -, hfetched⟩ := fetch_ready h hready hk (Prod.ext hscan rfl)
    exact ⟨c', _, hfill, hat', hfetched⟩

/-- Taking a value leaves the others, which come after it. -/
theorem Ready.tail {i : Nat} {c : Cursor} {x : Row} {rest : List Row} (h : c.Ready contents d i)
    (hbuffer : c.buffer = x :: rest) :
    ({ c with buffer := rest } : Cursor).Ready contents d i ∧
      (∀ r, ({ c with buffer := rest } : Cursor).Ahead r →
        c.Ahead r ∧ d.compareTimes x.time r.time = .lt) ∧
      ∀ r, c.Ahead r → r = x ∨ ({ c with buffer := rest } : Cursor).Ahead r := by
  have hmem : x ∈ c.buffer := hbuffer ▸ List.mem_cons_self
  have hsub : ∀ r ∈ rest, r ∈ c.buffer := fun r hr => hbuffer ▸ List.mem_cons_of_mem _ hr
  obtain ⟨hfirst, hrest⟩ := List.pairwise_cons.1 (hbuffer ▸ h.ordered)
  refine ⟨⟨h.chunk_pos, h.direction, fun r hr => h.series r (hsub r hr), hrest,
    fun r hr => h.stored r (hsub r hr), fun hopen r hr => h.beyond hopen r (hsub r hr)⟩, ?_, ?_⟩
  · rintro r (hr | ⟨hopen, hseries, hin⟩)
    · exact ⟨.inl (hsub r hr), hfirst r hr⟩
    · exact ⟨.inr ⟨hopen, hseries, hin⟩, h.beyond hopen x hmem r.time hin⟩
  · rintro r (hr | hr)
    · rw [hbuffer] at hr
      exact (List.mem_cons.1 hr).imp_right .inl
    · exact .inr (.inr hr)

/-- A cursor sweeps over its window and misses nothing. -/
theorem sweeps (hb : ∀ i, b.ReadsFrom (contents i) (At i))
    (hbefore : ∀ x r : Row, x.series = r.series → d.compareTimes x.time r.time = .lt → before x r) :
    Sweeps contents before (fun _ _ => False) (fun _ _ => False) (Cursor.next b) At
      (outlook contents d) where
  later h := ⟨h.chunk_pos, h.direction, h.series, h.ordered,
    fun r hr => (h.stored r hr).imp fun k hk => ⟨Nat.le_succ_of_le hk.1, hk.2⟩, h.beyond⟩
  step {i given c s} hstands hat := by
    obtain ⟨c', s', hfill, hat', hready, hended, hback, hkept⟩ :=
      fill_ready (hb i) hstands.ok hat
    cases hbuffer : c'.buffer with
    | nil =>
      refine ⟨.ended, c', s', by simp only [Cursor.next, hfill, hbuffer], hat',
        Advance.of_fetched (u := c') (.ended fun r _ hr => ?_) hback
          fun r hheld hr => .inl (hkept r hheld hr)⟩
      rcases hr with hr | ⟨hopen, -⟩
      · simp [hbuffer] at hr
      · simp [hended hbuffer] at hopen
    | cons x rest =>
      have hmem : x ∈ c'.buffer := hbuffer ▸ List.mem_cons_self
      obtain ⟨htail, hon, hleft⟩ := hready.tail hbuffer
      refine ⟨.value x, { c' with buffer := rest }, s', by simp only [Cursor.next, hfill, hbuffer],
        hat', Advance.of_fetched (u := c') (.value htail (.inl hmem) (hready.stored x hmem)
          (fun r hr => ?_) fun r _ hr => (hleft r hr).imp_right .inl)
          hback fun r hheld hr => .inl (hkept r hheld hr)⟩
      obtain ⟨hr', hlt⟩ := hon r hr
      exact ⟨hr', hbefore x r ((hready.series x hmem).trans (hr'.series_eq hready).symm) hlt⟩

theorem onWindow_ok {i : Nat} (series : SeriesId) (w : Window) {chunk : Nat} (hchunk : 0 < chunk) :
    (outlook contents d).ok i [] (onWindow series w chunk d) :=
  ⟨hchunk, rfl, by simp [onWindow], .nil, by simp [onWindow], by simp [onWindow]⟩

/-- A new cursor has its window ahead. -/
theorem onWindow_ahead {series : SeriesId} {w : Window} {chunk : Nat} {r : Row} :
    (onWindow series w chunk d).Ahead r ↔ r.series = series ∧ w.contains r.time = true := by
  simp [Ahead, onWindow]

end Cursor

/-! ## Limits -/

/-- The row has been cut off by a limit: so many rows that go before it were given. -/
def CutOff (before : Row → Row → Prop) (limit : Option Nat) (given : List Row) (r : Row) : Prop :=
  ∃ l, limit = some l ∧ l ≤ given.length ∧ ∀ x ∈ given.take l, before x r

theorem CutOff.append {limit : Option Nat} {given : List Row} {r : Row}
    (h : CutOff before limit given r) (more : List Row) :
    CutOff before limit (given ++ more) r := by
  obtain ⟨l, rfl, hl, hall⟩ := h
  refine ⟨l, rfl, ?_, ?_⟩
  · rw [List.length_append]
    omega
  · rwa [List.take_append_of_le_length hl]

/-- A limit of zero cuts off everything. -/
theorem cutOff_zero (given : List Row) (r : Row) : CutOff before (some 0) given r :=
  ⟨0, rfl, Nat.zero_le _, by simp⟩

/-- No limit cuts off nothing. -/
theorem not_cutOff_none {given : List Row} {r : Row} : ¬ CutOff before none given r := by
  rintro ⟨l, hl, -⟩
  cases hl

/-- A limit that is used up cuts off what is still ahead. -/
theorem Outlook.Stands.cutOff {i l : Nat} {given : List Row} {t : τ}
    (h : V.Stands before i given t) (hl : l ≤ given.length) {r : Row} (hr : V.ahead t r) :
    CutOff before (some l) given r :=
  ⟨l, rfl, hl, fun x hx => h.past x (List.mem_of_mem_take hx) r hr⟩

namespace LimitedCursor

variable {b : Backend σ} {V : Outlook Cursor}

/-- A cursor with a limit is seen as the cursor is, and counts what it gives. -/
def outlook (V : Outlook Cursor) (limit : Option Nat) : Outlook LimitedCursor where
  ok i given c := V.ok i given c.cursor ∧ c.left = limit.map (· - given.length)
  ahead c := V.ahead c.cursor

theorem next_of_left {c : LimitedCursor} (h : c.left ≠ some 0) (s : σ) :
    c.next b s = (((c.cursor.next b s).1.1, ⟨(c.cursor.next b s).1.2, c.left.map (· - 1)⟩),
      (c.cursor.next b s).2) := by
  unfold next
  split
  · contradiction
  · rfl

/-- Nothing but the limit makes a limited cursor miss anything. -/
theorem sweeps {limit : Option Nat}
    (h : Sweeps contents before (fun _ _ => False) (fun _ _ => False) (Cursor.next b) At V) :
    Sweeps contents before (fun _ _ => False) (CutOff before limit) (LimitedCursor.next b) At
      (outlook V limit) where
  later hok := hok.imp_left h.later
  step {i given c s} hstands hat := by
    obtain ⟨hok, hleft⟩ := hstands.ok
    have hcursor : V.Stands before i given c.cursor := ⟨hok, hstands.past⟩
    by_cases hzero : c.left = some 0
    · refine ⟨.ended, c, s, by simp only [next, hzero], hat, .ended fun r _ hr => ?_⟩
      rw [hzero] at hleft
      obtain ⟨l, rfl, hl⟩ := Option.map_eq_some_iff.1 hleft.symm
      exact hcursor.cutOff (by omega) hr
    · obtain ⟨item, c', s', hnext, hat', hadvance⟩ := h.step hcursor hat
      refine ⟨item, ⟨c', c.left.map (· - 1)⟩, s', by rw [next_of_left hzero, hnext], hat', ?_⟩
      cases hadvance with
      | value ok ahead stored on kept =>
        refine .value ⟨ok, ?_⟩ ahead stored on kept
        rw [hleft, Option.map_map, List.length_append]
        rfl
      | ended kept => exact .ended fun r hheld hr => (kept r hheld hr).elim

end LimitedCursor

end Historian
