import Historian.Proofs.Read.FailingReads
import Historian.Proofs.Read.Lookups
import Historian.Proofs.Store.Batches

/-!
# How many scans a read of one series takes

A cursor scans when its buffer is empty and it is asked for more.  The last scan of a read that has
not used up its limit brings nothing, unless the rows before it have reached the end of time.

* `Metered` — a source of which it is known beforehand what any number of calls will cost.
* `Cursor.metered`, `LimitedCursor.metered`, `Stream.metered` — the scans of a cursor, and of what
  stands above it.
* `Database.drain_scans` — the scans of one series read to its end or its limit.
* `Database.scansAsNeeded` — every read of one series, and that each of them comes to an end.
-/

set_option autoImplicit false

namespace Historian

variable {σ τ α : Type}

/-! ## Sources with a known cost -/

/-- `Costs t f` says that from source `t` on, any `n` calls take `f n` units of work.  One call takes
the first of them, and after an answer that is not a value no call takes any. -/
structure Metered (pull : τ → StateM σ (Pulled α × τ)) (Intact : σ → Prop) (work : σ → Nat)
    (Costs : τ → (Nat → Nat) → Prop) : Prop where
  zero : ∀ {t f}, Costs t f → f 0 = 0
  step : ∀ {t f s}, Costs t f → Intact s →
    ∃ f', Costs (pull t s).1.2 f' ∧ Intact (pull t s).2 ∧
      (∀ n, work (pull t s).2 + f' n = work s + f (n + 1)) ∧
      ((∀ x, (pull t s).1.1 ≠ .value x) → ∀ n, f' n = 0)

namespace Metered

variable {Intact : σ → Prop} {work : σ → Nat}

theorem pullTimes_work {pull : τ → StateM σ (Pulled α × τ)} {Costs : τ → (Nat → Nat) → Prop}
    (h : Metered pull Intact work Costs) (calls : Nat) :
    ∀ {t : τ} {f : Nat → Nat} {s : σ}, Costs t f → Intact s →
      work (pullTimes pull calls t s).2 = work s + f calls := by
  induction calls with
  | zero =>
    intro t f s ht _
    rw [h.zero ht]
    rfl
  | succ calls ih =>
    intro t f s ht hs
    obtain ⟨f', ht', hs', hwork, -⟩ := h.step ht hs
    show work (pullTimes pull calls (pull t s).1.2 (pull t s).2).2 = _
    rw [ih ht' hs', hwork]

/-- A delivery that stops early has not saved any work by that. -/
theorem deliverRows_work {pull : τ → StateM σ (Pulled Row × τ)} {Costs : τ → (Nat → Nat) → Prop}
    (h : Metered pull Intact work Costs) (budget : Nat) :
    ∀ (before : Nat) {t : τ} {f : Nat → Nat} {s : σ}, Costs t f → Intact s →
      work (deliverRows pull .none budget before t s).2 = work s + f budget := by
  induction budget with
  | zero =>
    intro before t f s ht _
    rw [h.zero ht]
    rfl
  | succ budget ih =>
    intro before t f s ht hs
    obtain ⟨f', ht', hs', hwork, hstop⟩ := h.step ht hs
    rcases hpull : pull t s with ⟨⟨item, t'⟩, s'⟩
    rw [hpull] at ht' hs' hwork hstop
    unfold deliverRows
    cases item with
    | value r =>
      simp only [hpull]
      rw [← hwork budget, ← ih (before + 1) ht' hs']
      rfl
    | ended =>
      simp only [hpull]
      rw [← hwork budget, hstop (by intro x hx; cases hx), Nat.add_zero]
    | failure e =>
      simp only [hpull]
      rw [← hwork budget, hstop (by intro x hx; cases hx), Nat.add_zero]

end Metered

/-! ## The scans of a cursor -/

/-- Whether an ascending read learns from the last of its rows that none comes after it. -/
def showsEnd (d : Direction) (rows : List Row) : Bool :=
  d == .ascending && rows.getLast?.any fun r => (Timestamp.next? r.time).isNone

/-- The scans that so many calls take if `rows` are to be fetched. -/
def scansFor (chunk : Nat) (d : Direction) (rows : List Row) (calls : Nat) : Nat :=
  min rows.length calls ⌈/⌉ chunk +
    if rows.length < calls ∧ showsEnd d rows = false then 1 else 0

section

variable {chunk calls : Nat} {d : Direction} {rows : List Row}

theorem scansFor_zero (chunk : Nat) (d : Direction) (rows : List Row) :
    scansFor chunk d rows 0 = 0 := by
  unfold scansFor
  rw [Nat.min_zero, zero_ceilDiv, if_neg (by omega)]

/-- The scan that brings nothing is the last. -/
theorem scansFor_nil (hcalls : 0 < calls) : scansFor chunk d [] calls = 1 := by
  unfold scansFor
  rw [List.length_nil, Nat.zero_min, zero_ceilDiv,
    if_pos ⟨hcalls, by unfold showsEnd; exact Bool.and_false _⟩]

/-- So is one that reaches the end of time. -/
theorem scansFor_of_showsEnd (hcalls : 0 < calls) (hrows : 0 < rows.length)
    (hchunk : rows.length ≤ chunk) (hend : showsEnd d rows = true) :
    scansFor chunk d rows calls = 1 := by
  have hpos : 0 < chunk := by omega
  unfold scansFor
  rw [ceilDiv_eq_succ hpos (by omega), show min rows.length calls - chunk = 0 by omega,
    zero_ceilDiv, if_neg (by rw [hend]; intro h; exact absurd h.2 (by decide))]

/-- Every other scan is followed by those for the rest. -/
theorem scansFor_eq_succ (hpos : 0 < chunk) (hcalls : 0 < calls) (hrows : 0 < rows.length)
    (hend : showsEnd d (rows.drop chunk) = showsEnd d rows) :
    scansFor chunk d rows calls =
      scansFor chunk d (rows.drop chunk) (calls - (rows.take chunk).length) + 1 := by
  unfold scansFor
  rw [hend, List.length_drop, List.length_take, ceilDiv_eq_succ hpos (by omega)]
  have hrest : min rows.length calls - chunk =
      min (rows.length - chunk) (calls - min chunk rows.length) := by omega
  have hmore : rows.length < calls ↔ rows.length - chunk < calls - min chunk rows.length := by omega
  simp only [hrest, hmore]
  omega

end

theorem Memory.scans_scan (request : Scan) (m : Memory) :
    (scan request m).2.scans = m.scans + 1 := by
  unfold scan
  simp only
  split <;> rfl

namespace Cursor

variable {a : Archive} {c : Cursor} {m : Memory}

/-- The scans that so many calls still take. -/
def scansLeft (a : Archive) (c : Cursor) (calls : Nat) : Nat :=
  if c.exhausted then 0
  else
    scansFor c.chunk c.direction (a.rows c.series c.window c.direction) (calls - c.buffer.length)

/-- Taking in a chunk is the first of them. -/
theorem scansLeft_receive {calls : Nat} (hbuffer : c.buffer = []) (hexhausted : c.exhausted = false)
    (hpos : 0 < c.chunk) (hcalls : 0 < calls) :
    (c.receive ((a.rows c.series c.window c.direction).take c.chunk)).scansLeft a calls + 1 =
      c.scansLeft a calls := by
  obtain ⟨series, window, chunk, direction, buffer, exhausted, fetches⟩ := c
  obtain rfl : buffer = [] := hbuffer
  obtain rfl : exhausted = false := hexhausted
  have hpos : 0 < chunk := hpos
  simp only [receive]
  cases hlast : ((a.rows series window direction).take chunk).getLast? with
  | none =>
    have hnil : a.rows series window direction = [] := by
      have := List.take_eq_nil_iff.1 (List.getLast?_eq_none_iff.1 hlast)
      exact this.resolve_left (by omega)
    simp only [scansLeft, hnil, if_true, Bool.false_eq_true, if_false, List.length_nil, Nat.sub_zero]
    rw [scansFor_nil hcalls]
  | some last =>
    have hrows : 0 < (a.rows series window direction).length := by
      refine List.length_pos_iff.2 fun hnil => ?_
      rw [hnil, List.take_nil] at hlast
      cases hlast
    cases direction with
    | ascending =>
      simp only
      cases hnext : Timestamp.next? last.time with
      | none =>
        have hdrop := Archive.drop_eq_nil_of_next?_eq_none hlast hnext
        have hle := List.drop_eq_nil_iff.1 hdrop
        rw [List.take_of_length_le hle] at hlast
        simp only [scansLeft, if_true, Bool.false_eq_true, if_false, List.length_nil, Nat.sub_zero]
        rw [scansFor_of_showsEnd hcalls hrows hle (by simp [showsEnd, hlast, hnext])]
      | some next =>
        have hdrop := Archive.rows_after_ascending hlast hnext
        simp only [scansLeft, Bool.false_eq_true, if_false, List.length_nil, Nat.sub_zero, hdrop]
        refine (scansFor_eq_succ hpos hcalls hrows ?_).symm
        unfold showsEnd
        rw [List.getLast?_drop]
        split
        · next hle =>
          -- nothing is left, but time goes on after the last row
          rw [List.take_of_length_le hle] at hlast
          simp [hlast, hnext]
        · rfl
    | descending =>
      have hdrop := Archive.rows_after_descending hlast
      simp only [scansLeft, Bool.false_eq_true, if_false, List.length_nil, Nat.sub_zero, hdrop]
      exact (scansFor_eq_succ hpos hcalls hrows rfl).symm

/-- Filling the buffer scans at most once, and leaves it empty only where nothing is left to fetch. -/
theorem fill_scans (hpos : 0 < c.chunk) (hm : Memory.Intact a m) :
    ∃ c' m', c.fill Memory.backend m = ((none, c'), m') ∧ Memory.Intact a m' ∧ 0 < c'.chunk ∧
      (c'.buffer = [] → c'.exhausted = true) ∧
      ∀ calls, m'.scans + c'.scansLeft a (calls + 1) = m.scans + c.scansLeft a (calls + 1) := by
  by_cases hready : c.buffer ≠ [] ∨ c.exhausted = true
  · refine ⟨c, m, if_pos hready, hm, hpos, fun hnil => ?_, fun calls => rfl⟩
    exact hready.resolve_left (not_not_intro hnil)
  · obtain ⟨hbuffer, hexhausted⟩ : c.buffer = [] ∧ c.exhausted = false := by simpa using hready
    obtain ⟨hscan, hintact⟩ := Memory.scan_intact hm c.request
    have hfound : Memory.found a c.request = (a.rows c.series c.window c.direction).take c.chunk :=
      Memory.found_single a c.series c.window c.chunk c.direction
    refine ⟨{ c with fetches := c.fetches + 1 }.receive
      ((a.rows c.series c.window c.direction).take c.chunk), (Memory.scan c.request m).2, ?_, hintact,
      ?_, ?_, ?_⟩
    · rw [fill, if_neg hready]
      simp only [Memory.backend, hscan, hfound]
    · rw [chunk_receive]
      exact hpos
    · intro hnil
      rw [buffer_receive] at hnil
      simp [receive, hnil]
    · intro calls
      have hreceive := scansLeft_receive (c := { c with fetches := c.fetches + 1 }) (a := a) hbuffer
        hexhausted hpos (Nat.zero_lt_succ calls)
      rw [Memory.scans_scan, Nat.add_assoc, Nat.add_comm 1]
      exact congrArg (m.scans + ·) hreceive

/-- What a cursor has still to scan is known from what it has still to fetch. -/
theorem metered (a : Archive) :
    Metered (Cursor.next Memory.backend) (Memory.Intact a) Memory.scans
      fun c f => 0 < c.chunk ∧ f = c.scansLeft a where
  zero := by
    rintro c f ⟨-, rfl⟩
    unfold scansLeft
    split
    · rfl
    · rw [Nat.zero_sub, scansFor_zero]
  step := by
    rintro c f m ⟨hpos, rfl⟩ hm
    obtain ⟨c', m', hfill, hm', hpos', hdone, hscans⟩ := fill_scans hpos hm
    cases hbuffer : c'.buffer with
    | nil =>
      have hnone : ∀ n, c'.scansLeft a n = 0 := fun n => if_pos (hdone hbuffer)
      simp only [next, hfill, hbuffer]
      refine ⟨c'.scansLeft a, ⟨hpos', rfl⟩, hm', fun n => ?_, fun _ => hnone⟩
      rw [← hscans, hnone, hnone]
    | cons r rest =>
      simp only [next, hfill, hbuffer]
      refine ⟨_, ⟨hpos', rfl⟩, hm', fun n => ?_, fun h => absurd rfl (h r)⟩
      rw [← hscans]
      simp only [scansLeft, hbuffer, List.length_cons, Nat.add_sub_add_right]

end Cursor

/-! ## The scans of what stands above a cursor -/

/-- Calls that the limit does not allow cost nothing. -/
theorem LimitedCursor.metered (a : Archive) :
    Metered (LimitedCursor.next Memory.backend) (Memory.Intact a) Memory.scans
      fun c f => 0 < c.cursor.chunk ∧
        f = fun n => c.cursor.scansLeft a (c.left.elim n (min n)) where
  zero := by
    rintro ⟨c, left⟩ f ⟨hpos, rfl⟩
    have hzero : left.elim 0 (min 0) = 0 := by
      cases left with
      | none => rfl
      | some l => exact Nat.zero_min l
    show c.scansLeft a (left.elim 0 (min 0)) = 0
    rw [hzero]
    exact (Cursor.metered a).zero ⟨hpos, rfl⟩
  step := by
    rintro ⟨c, left⟩ f m ⟨hpos, rfl⟩ hm
    by_cases hleft : left = some 0
    · subst hleft
      have hnone : ∀ n, c.scansLeft a (min n 0) = 0 := by
        intro n
        rw [Nat.min_zero]
        exact (Cursor.metered a).zero ⟨hpos, rfl⟩
      refine ⟨_, ⟨hpos, rfl⟩, hm, fun n => ?_, fun _ => hnone⟩
      show m.scans + c.scansLeft a (min n 0) = m.scans + c.scansLeft a (min (n + 1) 0)
      rw [hnone, hnone]
    · obtain ⟨f', ⟨hpos', rfl⟩, hm', hscans, hstop⟩ := (Cursor.metered a).step ⟨hpos, rfl⟩ hm
      rcases hnext : c.next Memory.backend m with ⟨⟨item, c'⟩, m'⟩
      simp only [hnext] at hpos' hm' hscans hstop
      simp only [LimitedCursor.next, hnext]
      refine ⟨_, ⟨hpos', rfl⟩, hm', fun n => ?_, fun h n => hstop h _⟩
      cases left with
      | none => exact hscans n
      | some l =>
        have hl : 0 < l := Nat.pos_of_ne_zero fun h => hleft (h ▸ rfl)
        have hless := hscans (min n (l - 1))
        rw [show min n (l - 1) + 1 = min (n + 1) l by omega] at hless
        exact hless

namespace Stream

/-- Giving the lease back takes no scan. -/
theorem close_scans (t : Stream) (m : Memory) : (t.close Memory.backend m).2.scans = m.scans := by
  unfold close
  cases t.lease <;> rfl

/-- A stream of one series that has ended costs nothing more. -/
theorem metered (a : Archive) :
    Metered (Stream.next Memory.backend) (Memory.Intact a) Memory.scans
      fun t f => t.body = none ∧ (f = fun _ => 0) ∨
        ∃ c : LimitedCursor, t.body = some (.inTurn [c]) ∧ t.remaining = none ∧ 0 < c.cursor.chunk ∧
          f = fun n => c.cursor.scansLeft a (c.left.elim n (min n)) where
  zero := by
    rintro t f (⟨-, rfl⟩ | ⟨c, -, -, hpos, rfl⟩)
    · rfl
    · exact (LimitedCursor.metered a).zero ⟨hpos, rfl⟩
  step := by
    have hclosing : ∀ (t : Stream) {m' : Memory}, Memory.Intact a m' →
        Memory.Intact a (t.close Memory.backend m').2 :=
      fun t _ hm' => close_intact (Memory.readsFrom a) t hm'
    rintro ⟨body, lease, remaining⟩ f m (⟨hbody, rfl⟩ | ⟨c, hbody, hremaining, hpos, rfl⟩) hm
    · obtain rfl : body = none := hbody
      refine ⟨fun _ => 0, .inl ⟨(next_of_closed Memory.backend rfl m).2, rfl⟩, ?_, fun _ => ?_,
        fun _ _ => rfl⟩
      · unfold next
        split
        · exact hclosing _ hm
        · exact hm
      · unfold next
        split
        · exact close_scans ..
        · rfl
    · obtain rfl : body = some (.inTurn [c]) := hbody
      obtain rfl : remaining = none := hremaining
      obtain ⟨f', ⟨hpos', rfl⟩, hm', hscans, hstop⟩ := (LimitedCursor.metered a).step ⟨hpos, rfl⟩ hm
      rcases hnext : c.next Memory.backend m with ⟨⟨item, c'⟩, m'⟩
      simp only [hnext] at hpos' hm' hscans hstop
      simp only [next, reduceCtorEq, if_false, StreamBody.next, StreamBody.nextInTurn, hnext]
      cases item with
      | value r =>
        exact ⟨_, .inr ⟨c', rfl, rfl, hpos', rfl⟩, hm', hscans, fun h => absurd rfl (h r)⟩
      | ended =>
        refine ⟨fun _ => 0, .inl ⟨rfl, rfl⟩, hclosing _ hm', fun n => ?_, fun _ _ => rfl⟩
        rw [← hscans n, hstop (by intro x hx; cases hx)]
        exact close_scans ..
      | failure e =>
        refine ⟨fun _ => 0, .inl ⟨rfl, rfl⟩, hclosing _ hm', fun n => ?_, fun _ _ => rfl⟩
        rw [← hscans n, hstop (by intro x hx; cases hx)]
        exact close_scans ..

end Stream

/-! ## Reads of one series -/

namespace Archive

variable {a : Archive} {id : SeriesId} {w : Window} {d : Direction}

/-- How many values a window of one series holds. -/
noncomputable def countIn (a : Archive) (id : SeriesId) (w : Window) : Nat :=
  {t ∈ a.timesOf id | w.contains t = true}.ncard

/-- An ascending read of the window meets a value at the last of all times. -/
def ReachesEnd (a : Archive) (id : SeriesId) (w : Window) (d : Direction) : Prop :=
  d = .ascending ∧ w.contains Int64.maxValue = true ∧ (a.get? id Int64.maxValue).isSome = true

instance (id : SeriesId) (w : Window) (d : Direction) : Decidable (a.ReachesEnd id w d) :=
  inferInstanceAs (Decidable (_ ∧ _ ∧ _))

theorem length_rows (a : Archive) (id : SeriesId) (w : Window) (d : Direction) :
    (a.rows id w d).length = a.countIn id w := by
  have htimes : {t ∈ a.timesOf id | w.contains t = true} =
      (((a.rows id w d).map Row.time).toFinset : Set Timestamp) := by
    ext t
    simp only [Set.mem_ofPred_eq, mem_timesOf_iff, List.coe_toFinset, List.mem_map]
    constructor
    · rintro ⟨⟨e, hget⟩, hw⟩
      exact ⟨⟨id, t, e.payload, e.note⟩, mem_rows.2 ⟨rfl, hw, hget⟩, rfl⟩
    · rintro ⟨r, hr, rfl⟩
      obtain ⟨-, hw, hget⟩ := mem_rows.1 hr
      exact ⟨⟨_, hget⟩, hw⟩
  have hnodup : ((a.rows id w d).map Row.time).Nodup := by
    refine List.pairwise_map.2 ((pairwise_rows a id w d).imp fun {x y} hlt heq => ?_)
    rw [Direction.compareTimes_eq_eq.2 heq] at hlt
    cases hlt
  rw [countIn, htimes, Set.ncard_coe_finset, List.toFinset_card_of_nodup hnodup, List.length_map]

theorem showsEnd_rows : showsEnd d (a.rows id w d) = true ↔ a.ReachesEnd id w d := by
  unfold showsEnd ReachesEnd
  rw [Bool.and_eq_true, beq_iff_eq]
  refine and_congr_right fun hd => ?_
  subst hd
  rw [Option.any_eq_true]
  constructor
  · rintro ⟨last, hlast, hnext⟩
    obtain ⟨-, hw, hget⟩ := mem_rows.1 (List.mem_of_getLast? hlast)
    have htime : last.time = Int64.maxValue :=
      Int64.le_antisymm (Int64.le_maxValue _)
        (Timestamp.le_of_next?_eq_none (Option.isNone_iff_eq_none.1 hnext) _)
    rw [htime] at hw hget
    exact ⟨hw, hget ▸ rfl⟩
  · rintro ⟨hw, hget⟩
    obtain ⟨e, hget⟩ := Option.isSome_iff_exists.1 hget
    have hmem : (⟨id, Int64.maxValue, e.payload, e.note⟩ : Row) ∈ a.rows id w .ascending :=
      mem_rows.2 ⟨rfl, hw, hget⟩
    obtain ⟨last, hlast⟩ := Option.ne_none_iff_exists'.1
      (List.getLast?_eq_none_iff.not.2 (List.ne_nil_of_mem hmem))
    obtain ⟨front, hrows⟩ := List.getLast?_eq_some_iff.1 hlast
    have hordered := pairwise_rows a id w .ascending
    rw [hrows] at hmem hordered
    refine ⟨last, hlast, ?_⟩
    -- whatever comes before the last row is at an earlier time
    have htime : last.time = Int64.maxValue := by
      rcases List.mem_append.1 hmem with hfront | hself
      · have hlt := (List.pairwise_append.1 hordered).2.2 _ hfront last (List.mem_singleton_self _)
        exact absurd (Std.compare_eq_lt.1 hlt) (Int64.not_lt.2 (Int64.le_maxValue _))
      · rw [← List.mem_singleton.1 hself]
    unfold Timestamp.next?
    rw [if_pos htime]
    rfl

end Archive

/-- The reads of one series, with the window, the limit and the direction of each.  A stream is among
them if it is asked until it has ended. -/
inductive Inquiry.Drains (a : Archive) :
    Inquiry → SeriesId → Window → Option Nat → Direction → Prop
  | latest (p : Point) (l : Nat) : Drains a (.latest p l) p.series .all (some l) .descending
  | latestBefore (p : Point) (stop : Timestamp) (l : Nat) :
      Drains a (.latestBefore p stop l) p.series ⟨none, some stop⟩ (some l) .descending
  | latestValue (p : Point) : Drains a (.latestValue p) p.series .all (some 1) .descending
  | valueBefore (p : Point) (t : Timestamp) :
      Drains a (.valueBefore p t) p.series ⟨none, some t⟩ (some 1) .descending
  | valueAfter (p : Point) (t : Timestamp) :
      Drains a (.valueAfter p t) p.series ⟨some t, none⟩ (some 1) .ascending
  | valueAt (p : Point) (t : Timestamp) :
      Drains a (.valueAt p t) p.series (.single t) (some 1) .ascending
  | range (p : Point) {start : Timestamp} {stop : Option Timestamp}
      (hends : ∀ t, stop = some t → start ≤ t) :
      Drains a (.range p start stop) p.series ⟨some start, stop⟩ none .ascending
  | rangeWith (p : Point) {start stop : Timestamp} (hends : start ≤ stop) :
      Drains a (.rangeWith p start stop) p.series ⟨some start, some stop⟩ none .ascending
  | count (p : Point) {start stop : Option Timestamp}
      (hends : ∀ f t, start = some f → stop = some t → f ≤ t) :
      Drains a (.count p start stop) p.series ⟨start, stop⟩ none .ascending
  | inception (p : Point) : Drains a (.inception p) p.series .all (some 1) .ascending
  | perPoint {points : List Point} {id : SeriesId} (hpoints : Database.seriesOf points = [id])
      {start stop : Option Timestamp} (hends : ∀ f t, start = some f → stop = some t → f ≤ t)
      (l : Option Nat) (d : Direction) :
      Drains a (.perPoint points start stop (l.map Int.ofNat) d) id ⟨start, stop⟩ l d
  | standingAt {points : List Point} {id : SeriesId} (hpoints : Database.seriesOf points = [id])
      (t : Timestamp) :
      Drains a (.standingAt points t) id ⟨none, Timestamp.next? t⟩ (some 1) .descending
  | streamPerPoint {points : List Point} {id : SeriesId} (hpoints : Database.seriesOf points = [id])
      {start stop : Option Timestamp} (hends : ∀ f t, start = some f → stop = some t → f ≤ t)
      (l : Option Nat) (d : Direction) {calls : Nat}
      (hcalls : l.elim (a.countIn id ⟨start, stop⟩) (min (a.countIn id ⟨start, stop⟩)) < calls) :
      Drains a (.streamPerPoint points start stop (l.map Int.ofNat) d calls) id ⟨start, stop⟩ l d

namespace Database

variable {db : Database Memory} {a : Archive} {m : Memory}

theorem drain_scans (hdb : db.backend = Memory.backend) (hm : Memory.Intact a m) (id : SeriesId)
    (w : Window) (l : Option Nat) (d : Direction) (before : Nat) :
    (db.drain id w l d .none before m).2.scans =
      m.scans + scansFor (db.limitedChunk l) d (a.rows id w d) (budget l w.width) := by
  unfold drain
  rw [hdb]
  exact (Cursor.metered a).deliverRows_work _ _ ⟨db.limitedChunk_pos l, rfl⟩ hm

/-- Of the calls only those count that the window and the limit have something for. -/
theorem scansFor_congr {chunk calls calls' : Nat} {d : Direction} {rows : List Row}
    (hcount : min rows.length calls = min rows.length calls')
    (hmore : rows.length < calls ↔ rows.length < calls') :
    scansFor chunk d rows calls = scansFor chunk d rows calls' := by
  unfold scansFor
  simp only [hcount, hmore]

theorem drainInTurn_scans (hdb : db.backend = Memory.backend) (hm : Memory.Intact a m)
    (id : SeriesId) (w : Window) (l : Option Nat) (d : Direction) :
    (db.drainInTurn [id] w l d .none m).2.scans =
      m.scans + scansFor (db.limitedChunk l) d (a.rows id w d) (budget l w.width) := by
  rw [← drain_scans hdb hm id w l d 0]
  unfold drainInTurn
  rcases hdrain : db.drain id w l d .none 0 m with ⟨delivery, m'⟩
  simp only [deliverInTurn, hdrain]
  split <;> rfl

theorem pulled_scans (hdb : db.backend = Memory.backend) (hm : Memory.Intact a m)
    {points : List Point} {id : SeriesId} (hpoints : seriesOf points = [id])
    {start stop : Option Timestamp} (hends : ∀ f t, start = some f → stop = some t → f ≤ t)
    (l : Option Nat) (d : Direction) (calls : Nat) :
    (db.pulled calls (db.streamPerPoint points start stop (l.map Int.ofNat) d) m).2.scans =
      m.scans + scansFor (db.limitedChunk l) d (a.rows id ⟨start, stop⟩ d)
        (l.elim calls (min calls)) := by
  by_cases hzero : l = some 0
  · subst hzero
    have hopen : db.streamPerPoint points start stop ((some 0).map Int.ofNat) d m =
        (.ok .empty, m) := by
      unfold streamPerPoint openStream
      rw [checkArguments_eq_ok hends]
      rfl
    show _ = m.scans + scansFor _ _ _ (min calls 0)
    rw [Nat.min_zero, scansFor_zero]
    unfold pulled
    rw [bind_run hopen, hdb]
    exact (Stream.metered a).deliverRows_work _ _ (.inl ⟨rfl, rfl⟩) hm
  · have hopen : db.streamPerPoint points start stop (l.map Int.ofNat) d m =
        (.ok (.new (.inTurn [⟨.onWindow id ⟨start, stop⟩ (db.limitedChunk l) d, l⟩]) ⟨true⟩ none),
          { m with openLeases := m.openLeases + 1 }) := by
      unfold streamPerPoint openStream
      rw [checkArguments_eq_ok hends, hpoints, hdb]
      exact if_neg hzero
    unfold pulled
    rw [bind_run hopen, hdb]
    exact (Stream.metered a).deliverRows_work _ _
      (.inr ⟨⟨.onWindow id ⟨start, stop⟩ (db.limitedChunk l) d, l⟩, rfl, rfl, db.limitedChunk_pos l,
        rfl⟩) ⟨hm.1, hm.2⟩

end Database

/-- Every read of one series takes the scans of a cursor that is asked as often as the limit allows,
or until it has ended. -/
theorem Inquiry.Drains.run_scans {db : Database Memory} (hdb : db.backend = Memory.backend)
    {a : Archive} {m : Memory} (hm : Memory.Intact a m) {q : Inquiry} {id : SeriesId} {w : Window}
    {l : Option Nat} {d : Direction} (hq : q.Drains a id w l d) :
    (q.run db m).2.scans = m.scans +
      scansFor (db.limitedChunk l) d (a.rows id w d) (Database.budget l w.width) := by
  have hcollect : ∀ (p : Point) {args : Except Failure (Window × Option Nat)} {w : Window}
      {l : Option Nat} {d : Direction}, args = .ok (w, l) →
      (db.collect p args d m).2.scans = m.scans +
        scansFor (db.limitedChunk l) d (a.rows p.series w d) (Database.budget l w.width) := by
    rintro p _ w l d rfl
    exact Database.drain_scans hdb hm p.series w l d 0
  -- what is made of the answer does not matter
  have hrun : ∀ {α β : Type} (x : StateM Memory α) (f : α → β),
      ((x >>= fun r => pure (f r)) m).2.scans = (x m).2.scans := fun _ _ => rfl
  have hfirst : ∀ (p : Point) (w : Window) (d : Direction), (db.first p w d m).2.scans = m.scans +
      scansFor (db.limitedChunk (some 1)) d (a.rows p.series w d) 1 :=
    fun p w d => (hrun (db.collect p (.ok (w, some 1)) d) _).trans (hcollect p rfl)
  have hlimit : ∀ l : Nat, Database.checkLimit (some (l : Int)) = .ok (some l) := fun l =>
    Database.checkLimit_eq_ok (some l)
  cases hq with
  | latest p l => exact (hrun (db.latest p l) _).trans (hcollect p (by rw [hlimit]; rfl))
  | latestBefore p stop l =>
    exact (hrun (db.latestBefore p stop l) _).trans (hcollect p (by rw [hlimit]; rfl))
  | latestValue p => exact (hrun (db.latestValue p) _).trans (hfirst p .all .descending)
  | valueBefore p t =>
    exact (hrun (db.valueBefore p t) _).trans (hfirst p ⟨none, some t⟩ .descending)
  | valueAfter p t => exact (hrun (db.valueAfter p t) _).trans (hfirst p ⟨some t, none⟩ .ascending)
  | valueAt p t => exact (hrun (db.valueAt p t) _).trans (hfirst p (.single t) .ascending)
  | @range p start stop hends =>
    refine (hrun (db.range p start stop) _).trans (hcollect p ?_)
    rw [Window.new_eq_ok (by rintro _ t ⟨⟩ ht; exact hends t ht)]
    rfl
  | rangeWith p hends =>
    show (db.rangeWith p _ _ .none m).2.scans = _
    unfold Database.rangeWith
    rw [Window.new_eq_ok (Database.ends_of_le hends)]
    exact Database.drain_scans hdb hm p.series _ none .ascending 0
  | @count p start stop hends =>
    refine (hrun (db.count p start stop) _).trans (hcollect p ?_)
    rw [Window.new_eq_ok hends]
    rfl
  | inception p => exact (hrun (db.inception p) _).trans (hfirst p .all .ascending)
  | @perPoint points id hpoints start stop hends l d =>
    show (db.perPoint points start stop (l.map Int.ofNat) d .none m).2.scans = _
    unfold Database.perPoint
    rw [Database.checkArguments_eq_ok hends, hpoints]
    exact Database.drainInTurn_scans hdb hm id _ l d
  | @standingAt points id hpoints t =>
    show (db.perPoint points none (Timestamp.next? t) (some 1) .descending .none m).2.scans = _
    unfold Database.perPoint
    rw [hpoints]
    exact Database.drainInTurn_scans hdb hm id _ (some 1) .descending
  | @streamPerPoint points id hpoints start stop hends l d calls hcalls =>
    have hle := Archive.length_rows_le a id ⟨start, stop⟩ d
    rw [← a.length_rows id ⟨start, stop⟩ d] at hcalls
    refine (Database.pulled_scans hdb hm hpoints hends l d calls).trans ?_
    refine congrArg (m.scans + ·) (Database.scansFor_congr ?_ ?_)
    · cases l with
      | none => simp only [Option.elim_none, Database.budget, Option.getD_none] at hcalls ⊢; omega
      | some l => simp only [Option.elim_some, Database.budget, Option.getD_some] at hcalls ⊢; omega
    · cases l with
      | none => simp only [Option.elim_none, Database.budget, Option.getD_none] at hcalls ⊢; omega
      | some l => simp only [Option.elim_some, Database.budget, Option.getD_some] at hcalls ⊢; omega

/-! ## The end of a read -/

/-- A source is told to have ended by the call after its last item. -/
theorem Yields.pullTimes_to_end {pull : τ → StateM σ (Pulled α × τ)} {Intact : σ → Prop} {xs : List α} :
    ∀ {t : τ} {s : σ}, Yields pull Intact t xs → Intact s →
      (pullTimes pull (xs.length + 1) t s).1.1 = xs.map .value ++ [.ended] := by
  induction xs with
  | nil =>
    intro t s h hs
    show [(pull t s).1.1] = _
    rw [(h s hs).1]
    rfl
  | cons x xs ih =>
    intro t s h hs
    obtain ⟨hitem, hs', hrest⟩ := h s hs
    show (pull t s).1.1 :: (pullTimes pull (xs.length + 1) (pull t s).1.2 (pull t s).2).1.1 = _
    rw [hitem, ih hrest hs']
    rfl

/-- A delivery that may go on until its source has ended is the same however long it may. -/
theorem deliverRows_of_lt {pull : τ → StateM σ (Pulled Row × τ)} {Intact : σ → Prop}
    {xs : List Row} :
    ∀ (before : Nat) {budget budget' : Nat} {t : τ} {s : σ}, xs.length < budget →
      xs.length < budget' → Yields pull Intact t xs → Intact s →
      deliverRows pull .none budget before t s = deliverRows pull .none budget' before t s := by
  induction xs with
  | nil =>
    intro before budget budget' t s hbudget hbudget' h hs
    obtain ⟨n, rfl⟩ := Nat.exists_eq_add_of_lt hbudget
    obtain ⟨n', rfl⟩ := Nat.exists_eq_add_of_lt hbudget'
    rcases hpull : pull t s with ⟨⟨item, t'⟩, s'⟩
    obtain ⟨hitem, -⟩ := h s hs
    rw [hpull] at hitem
    obtain rfl : item = .ended := hitem
    simp only [deliverRows, hpull]
  | cons r rest ih =>
    intro before budget budget' t s hbudget hbudget' h hs
    cases budget with
    | zero => omega
    | succ n =>
      cases budget' with
      | zero => omega
      | succ n' =>
        rcases hpull : pull t s with ⟨⟨item, t'⟩, s'⟩
        obtain ⟨hitem, hs', hrest⟩ := h s hs
        rw [hpull] at hitem hs' hrest
        obtain rfl : item = .value r := hitem
        have hless := ih (before + 1) (Nat.lt_of_succ_lt_succ hbudget)
          (Nat.lt_of_succ_lt_succ hbudget') hrest hs'
        simp only [deliverRows, hpull, Reaction.none, hless]

namespace Database

/-- What the reads of one series cost a store, in scans. -/
structure ScansAsNeeded (db : Database Memory) (m : Memory) : Prop where
  limitZero : ∀ {q : Inquiry} {id : SeriesId} {w : Window} {d : Direction},
    q.Drains m.archive id w (some 0) d → (q.run db m).2.scans = m.scans
  /-- One for each chunk, and one that finds nothing more. -/
  unlimited : ∀ {q : Inquiry} {id : SeriesId} {w : Window} {d : Direction},
    q.Drains m.archive id w none d →
    (q.run db m).2.scans = m.scans + (m.archive.countIn id w ⌈/⌉ db.chunkSize +
      if m.archive.ReachesEnd id w d then 0 else 1)
  limited : ∀ {q : Inquiry} {id : SeriesId} {w : Window} {l : Nat} {d : Direction}, 0 < l →
    q.Drains m.archive id w (some l) d →
    (q.run db m).2.scans = m.scans + (min (m.archive.countIn id w) l ⌈/⌉ min l db.chunkSize +
      if m.archive.countIn id w < l ∧ ¬ m.archive.ReachesEnd id w d then 1 else 0)
  /-- A cursor that is asked so many times, on a window that is not limited. -/
  cursor : ∀ (id : SeriesId) (w : Window) (d : Direction) {chunk : Nat}, 0 < chunk → ∀ calls,
    (pullTimes (Cursor.next db.backend) calls (.onWindow id w chunk d) m).2.scans =
      m.scans + (min (m.archive.countIn id w) calls ⌈/⌉ chunk +
        if m.archive.countIn id w < calls ∧ ¬ m.archive.ReachesEnd id w d then 1 else 0)
  /-- After as many values as the window holds it has ended. -/
  ends : ∀ (id : SeriesId) (w : Window) (d : Direction) {chunk : Nat}, 0 < chunk →
    ∃ rows : List Row, rows.length = m.archive.countIn id w ∧
      (pullTimes (Cursor.next db.backend) (m.archive.countIn id w + 1) (.onWindow id w chunk d) m).1.1 =
        rows.map .value ++ [.ended]
  /-- So a read without a limit stops by itself: to let it go on longer makes no difference. -/
  stops : ∀ (id : SeriesId) (w : Window) (d : Direction) {budget : Nat},
    m.archive.countIn id w < budget →
    deliverRows (Cursor.next db.backend) .none budget 0 (.onWindow id w db.chunkSize d) m =
      db.drain id w none d .none 0 m

variable {a : Archive} {id : SeriesId} {w : Window} {d : Direction}

/-- The scans for a window, said by what the series holds. -/
theorem scansFor_rows (a : Archive) (id : SeriesId) (w : Window) (d : Direction)
    (chunk calls : Nat) :
    scansFor chunk d (a.rows id w d) calls = min (a.countIn id w) calls ⌈/⌉ chunk +
      if a.countIn id w < calls ∧ ¬ a.ReachesEnd id w d then 1 else 0 := by
  unfold scansFor
  simp only [Archive.length_rows, ← Archive.showsEnd_rows, Bool.not_eq_true]

/-- A read of one series scans once for each chunk that it takes, and once more if it has to find out
that nothing is left: for every content of the store, every window, direction, size of chunks and
limit, and for every form of the read. -/
theorem scansAsNeeded {db : Database Memory} (hdb : db.backend = Memory.backend) {m : Memory}
    (hscans : m.failingScans = 0) : db.ScansAsNeeded m := by
  have hm : Memory.Intact m.archive m := ⟨hscans, rfl⟩
  have hyields : ∀ (id : SeriesId) (w : Window) (d : Direction) {chunk : Nat}, 0 < chunk →
      Yields (Cursor.next db.backend) (Memory.Intact m.archive) (.onWindow id w chunk d)
        (m.archive.rows id w d) := by
    intro id w d chunk hchunk
    rw [hdb]
    exact Cursor.onWindow_yields (Memory.readsFrom _) id w hchunk d
  constructor
  case limitZero =>
    intro q id w d hq
    rw [hq.run_scans hdb hm]
    exact congrArg (m.scans + ·) (scansFor_zero ..)
  case unlimited =>
    intro q id w d hq
    have hle := m.archive.length_rows_le id w d
    rw [Archive.length_rows] at hle
    rw [hq.run_scans hdb hm, scansFor_rows]
    show m.scans + (min _ (w.width + 1) ⌈/⌉ db.chunkSize + _) = _
    rw [Nat.min_eq_left (by omega)]
    by_cases hend : m.archive.ReachesEnd id w d
    · rw [if_pos hend, if_neg (not_and_not_right.2 fun _ => hend)]
    · rw [if_neg hend, if_pos ⟨Nat.lt_succ_of_le hle, hend⟩]
  case limited =>
    intro q id w l d hl hq
    rw [hq.run_scans hdb hm, scansFor_rows]
    show m.scans + (min _ l ⌈/⌉ min (max l 1) db.chunkSize + _) = _
    rw [Nat.max_eq_left hl]
    rfl
  case cursor =>
    intro id w d chunk hchunk calls
    rw [hdb, ← scansFor_rows]
    exact (Cursor.metered m.archive).pullTimes_work calls ⟨hchunk, rfl⟩ hm
  case ends =>
    intro id w d chunk hchunk
    refine ⟨m.archive.rows id w d, Archive.length_rows .., ?_⟩
    rw [← m.archive.length_rows id w d]
    exact (hyields id w d hchunk).pullTimes_to_end hm
  case stops =>
    intro id w d budget hbudget
    have hle := m.archive.length_rows_le id w d
    rw [← m.archive.length_rows id w d] at hbudget
    exact deliverRows_of_lt 0 hbudget (Nat.lt_succ_of_le hle) (hyields id w d db.chunkSize_pos) hm

/-- Three values, the last of them at the end of time, in chunks of two: upwards two scans are
enough, downwards and for a fourth value it takes a third one. -/
theorem scansAsNeeded_end_of_time :
    let sample (t : Timestamp) : Sample := ⟨t, .flag true, none⟩
    let m : Memory := { Memory.new with
      archive := Archive.empty.putAll [(1, sample 7), (1, sample Int64.maxValue), (1, sample 5)] }
    let db : Database Memory := ⟨Memory.backend, .all, 2, 10, by decide, by decide⟩
    let p : Point := ⟨7, 1⟩
    m.archive.countIn p.series .all = 3 ∧ ((Inquiry.range p 5 none).run db m).2.scans = 2 ∧
      ((Inquiry.perPoint [p] none none none .descending).run db m).2.scans = 3 ∧
      ((Inquiry.latest p 3).run db m).2.scans = 2 ∧ ((Inquiry.latest p 4).run db m).2.scans = 3 := by
  intro sample m db p
  have hreads : db.ScansAsNeeded m := scansAsNeeded rfl rfl
  have hall : m.archive.countIn p.series .all = 3 := by
    rw [← Archive.length_rows _ _ _ .ascending]
    decide +kernel
  have hfrom : m.archive.countIn p.series ⟨some 5, none⟩ = 3 := by
    rw [← Archive.length_rows _ _ _ .ascending]
    decide +kernel
  have hup : m.archive.ReachesEnd p.series ⟨some 5, none⟩ .ascending := by decide +kernel
  have hdown : ∀ w, ¬ m.archive.ReachesEnd p.series w .descending := fun _ h => nomatch h.1
  have htwo : 3 ⌈/⌉ db.chunkSize = 2 := by
    show 3 ⌈/⌉ 2 = 2
    decide
  refine ⟨hall, ?_, ?_, ?_, ?_⟩
  · have hdrains : (Inquiry.range p 5 none).Drains m.archive p.series ⟨some 5, none⟩ none .ascending :=
      .range p (by rintro t ⟨⟩)
    have hrange := hreads.unlimited hdrains
    rw [hfrom, htwo, if_pos hup] at hrange
    exact hrange
  · have hdrains : (Inquiry.perPoint [p] none none none .descending).Drains m.archive p.series
        ⟨none, none⟩ none .descending := .perPoint rfl (by rintro _ _ ⟨⟩) none .descending
    have hpoint := hreads.unlimited hdrains
    rw [show m.archive.countIn p.series ⟨none, none⟩ = 3 from hall, htwo, if_neg (hdown _)] at hpoint
    exact hpoint
  · have hlatest := hreads.limited (q := .latest p 3) (l := 3) (Nat.zero_lt_succ 2) (.latest p 3)
    rw [hall, show min 3 3 ⌈/⌉ min 3 db.chunkSize = 2 from htwo] at hlatest
    simp only [Nat.lt_irrefl, false_and, if_false] at hlatest
    exact hlatest
  · have hlatest := hreads.limited (q := .latest p 4) (l := 4) (Nat.zero_lt_succ 3) (.latest p 4)
    rw [hall, show min 3 4 ⌈/⌉ min 4 db.chunkSize = 2 from htwo] at hlatest
    simp only [hdown, not_false_eq_true, Nat.lt_succ_self, and_self, if_true] at hlatest
    exact hlatest

end Database

end Historian
