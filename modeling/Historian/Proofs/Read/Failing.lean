import Historian.Database.Edges

/-!
# Reading from a store whose scans may fail

A read over a store whose scans may fail is compared with the same read over one that it mirrors
until then.  As long as no scan has failed both are in the same state and answer alike, whatever the
store holds.  The first failure ends the read: it comes out at once, or after the one row that had
been chosen before it, or it comes too late to matter.

* `Backend.Mirrors` — the scans of one backend are those of another or fail.
* `Told`, `Mirrored.bind` — how a read ends, and reads made of parts.
* `Cursor.next_alike`, `Merge.next_alike` — what one learns of a failure when asking a source.
* `deliverRows_mirrored`, `deliverInTurn_mirrored` — what one learns of it from a read.
-/

set_option autoImplicit false

namespace Historian

variable {σ τ υ α β : Type}

/-! ## Scans that fail -/

/-- Two scans look alike to one who does not look at what a failing scan has brought. -/
def ScanResult.Agrees (r' r : ScanResult) : Prop :=
  r'.failure = r.failure ∧ (r.failure = none → r'.rows = r.rows)

/-- From states that are the `Same`, the first backend answers like the second, or a scan fails; the
state `After` that failure is that of no successful scan. -/
structure Backend.Mirrors (b' : Backend τ) (b : Backend σ) (Same : τ → σ → Prop)
    (After : BackendFailure → τ → Prop) : Prop where
  scan : ∀ (request : Scan) {t : τ} {s : σ}, Same t s →
    (b'.scan request t).1.Agrees (b.scan request s).1 ∧
        Same (b'.scan request t).2 (b.scan request s).2 ∨
      ∃ e, (b'.scan request t).1.failure = some e ∧ After e (b'.scan request t).2
  openLease : ∀ {t : τ} {s : σ}, Same t s →
    (b'.openLease t).1 = (b.openLease s).1 ∧ Same (b'.openLease t).2 (b.openLease s).2
  releaseLease : ∀ (l : Lease) {t : τ} {s : σ}, Same t s →
    Same (b'.releaseLease l t) (b.releaseLease l s)
  releaseLease_after : ∀ (l : Lease) {e : BackendFailure} {t : τ}, After e t →
    After e (b'.releaseLease l t)

/-! ## How a read ends -/

/-- How a read over a store that may fail ends, beside the same read over one that does not: alike,
or with the failure, and then `Cut` says what of the answer there is.  With `late` the failure may
have come when the answer was complete and not a failure itself. -/
inductive Told (Same : τ → σ → Prop) (After : BackendFailure → τ → Prop) (late : Prop)
    (Cut : Failure → α → α → Prop) (p' : α × τ) (p : α × σ) : Prop
  | same (hanswer : p'.1 = p.1) (h : Same p'.2 p.2)
  | tooLate (hlate : late) (hanswer : p'.1 = p.1) (hwhole : ∀ cause, ¬ Cut cause p.1 p.1)
      {e : BackendFailure} (h : After e p'.2)
  | failed {e : BackendFailure} (h : After e p'.2) (hcut : Cut (.ofBackend e) p'.1 p.1)

/-- Wherever both reads begin in the same state, they end as `Told` says. -/
def Mirrored (Same : τ → σ → Prop) (After : BackendFailure → τ → Prop) (late : Prop)
    (Cut : Failure → α → α → Prop) (x' : StateM τ α) (x : StateM σ α) : Prop :=
  ∀ ⦃t : τ⦄ ⦃s : σ⦄, Same t s → Told Same After late Cut (x' t) (x s)

section Reads

variable {Same : τ → σ → Prop} {After : BackendFailure → τ → Prop} {late : Prop}
  {Cut : Failure → α → α → Prop} {Cut' : Failure → β → β → Prop}

namespace Mirrored

theorem pure (x : α) : Mirrored Same After late Cut (pure x) (pure x) := fun _ _ h => .same rfl h

theorem weaken {x' : StateM τ α} {x : StateM σ α} (h : Mirrored Same After False Cut x' x) :
    Mirrored Same After late Cut x' x := by
  intro t s hs
  cases h hs with
  | same hanswer h => exact .same hanswer h
  | tooLate hlate => exact hlate.elim
  | failed h hcut => exact .failed h hcut

/-- Nothing comes too late where nothing fails. -/
theorem prompt {x' : StateM τ α} {x : StateM σ α} (h : Mirrored Same After late Cut x' x)
    (hnever : ∀ e t, ¬ After e t) : Mirrored Same After False Cut x' x := by
  intro t s hs
  cases h hs with
  | same hanswer h => exact .same hanswer h
  | tooLate _ _ _ h => exact absurd h (hnever _ _)
  | failed h _ => exact absurd h (hnever _ _)

theorem map {x' : StateM τ α} {x : StateM σ α} (h : Mirrored Same After late Cut x' x) (f : α → β)
    (hcut : ∀ cause a' a, Cut cause a' a → Cut' cause (f a') (f a))
    (hback : ∀ cause a, Cut' cause (f a) (f a) → Cut cause a a) :
    Mirrored Same After late Cut' (do let a ← x'; return f a) (do let a ← x; return f a) := by
  intro t s hs
  cases h hs with
  | same hanswer h => exact .same (congrArg f hanswer) h
  | tooLate hlate hanswer hwhole h =>
    exact .tooLate hlate (congrArg f hanswer) (fun cause hc => hwhole cause (hback _ _ hc)) h
  | failed h hc => exact .failed h (hcut _ _ _ hc)

/-- A read that only looks at what it has got. -/
theorem conclude {x' : StateM τ α} {x : StateM σ α} {k' : α → StateM τ β} {k : α → StateM σ β}
    {f : α → β} (h : Mirrored Same After late Cut x' x) (hk' : ∀ a, k' a = Pure.pure (f a))
    (hk : ∀ a, k a = Pure.pure (f a)) (hcut : ∀ cause a' a, Cut cause a' a → Cut' cause (f a') (f a))
    (hback : ∀ cause a, Cut' cause (f a) (f a) → Cut cause a a) :
    Mirrored Same After late Cut' (x' >>= k') (x >>= k) := by
  rw [funext hk', funext hk]
  exact h.map f hcut hback

/-- A read in two parts, of which the second asks for nothing when the first has failed. -/
theorem bind {x' : StateM τ α} {x : StateM σ α} {k' : α → StateM τ β} {k : α → StateM σ β}
    (hx : Mirrored Same After False Cut x' x) (hk : ∀ a, Mirrored Same After late Cut' (k' a) (k a))
    (hstop : ∀ cause a' a, Cut cause a' a → ∀ t s, ∃ y', k' a' t = (y', t) ∧
      Cut' cause y' (k a s).1) :
    Mirrored Same After late Cut' (x' >>= k') (x >>= k) := by
  intro t s hs
  show Told Same After late Cut' (k' (x' t).1 (x' t).2) (k (x s).1 (x s).2)
  cases hx hs with
  | same hanswer h =>
    rw [hanswer]
    exact hk _ h
  | tooLate hlate => exact hlate.elim
  | failed h hc =>
    obtain ⟨y', hy', hcut⟩ := hstop _ _ _ hc (x' t).2 (x s).2
    rw [hy']
    exact .failed h hcut

end Mirrored

/-! ## Asking a source -/

/-- How a source answers over a store that may fail, beside the same source over one that does not:
alike, with the failure, or once more with its value, `Doomed` to give the failure next. -/
inductive Alike (Same : τ → σ → Prop) (After : BackendFailure → τ → Prop)
    (Doomed : Failure → υ → υ → Prop) (p' : (Pulled α × υ) × τ) (p : (Pulled α × υ) × σ) : Prop
  | same (hanswer : p'.1 = p.1) (h : Same p'.2 p.2)
  | failed {e : BackendFailure} (h : After e p'.2) (hitem : p'.1.1 = .failure (.ofBackend e))
  | doomed {v : α} {e : BackendFailure} (h : After e p'.2) (hitem' : p'.1.1 = .value v)
      (hitem : p.1.1 = .value v) (hdoomed : Doomed (.ofBackend e) p'.1.2 p.1.2)

/-- No source is doomed. -/
def Never (_ : Failure) (_ _ : υ) : Prop := False

variable {b' : Backend τ} {b : Backend σ}

namespace Cursor

/-- Fetching a chunk tells of a failure at once, and takes nothing of what the scan has brought. -/
theorem fill_mirrored (hb : b'.Mirrors b Same After) (c : Cursor) :
    Mirrored Same After False (fun cause x' _ => x'.1 = some cause) (c.fill b') (c.fill b) := by
  intro t s hs
  by_cases hskip : c.buffer ≠ [] ∨ c.exhausted = true
  · simp only [fill, hskip, if_true]
    exact .same rfl hs
  · simp only [fill, hskip, if_false]
    rcases hb.scan c.request hs with ⟨⟨hfailure, hrows⟩, hs'⟩ | ⟨e, he, hafter⟩
    · rw [hfailure]
      cases hresult : (b.scan c.request s).1.failure with
      | none => exact .same (by rw [hrows hresult]) hs'
      | some e => exact .same rfl hs'
    · rw [he]
      exact .failed hafter rfl

theorem next_alike (hb : b'.Mirrors b Same After) (c : Cursor) {t : τ} {s : σ} (hs : Same t s) :
    Alike Same After Never (c.next b' t) (c.next b s) := by
  unfold next
  have hfill := fill_mirrored hb c hs
  generalize c.fill b' t = p', c.fill b s = p at hfill
  obtain ⟨⟨failure', c'⟩, t'⟩ := p'
  obtain ⟨⟨failure, d⟩, s'⟩ := p
  cases hfill with
  | same hanswer h =>
    obtain ⟨rfl, rfl⟩ := Prod.mk.inj hanswer
    dsimp only
    split
    · exact .same rfl h
    · exact .same rfl h
    · exact .same rfl h
  | tooLate hlate => exact hlate.elim
  | @failed e h hcut =>
    obtain rfl : failure' = some (.ofBackend e) := hcut
    exact .failed h rfl

end Cursor

theorem LimitedCursor.next_alike (hb : b'.Mirrors b Same After) (c : LimitedCursor) {t : τ} {s : σ}
    (hs : Same t s) : Alike Same After Never (c.next b' t) (c.next b s) := by
  unfold next
  split
  · exact .same rfl hs
  · have hnext := c.cursor.next_alike hb hs
    generalize c.cursor.next b' t = p', c.cursor.next b s = p at hnext
    obtain ⟨⟨item', c'⟩, t'⟩ := p'
    obtain ⟨⟨item, d⟩, s'⟩ := p
    cases hnext with
    | same hanswer h =>
      obtain ⟨rfl, rfl⟩ := Prod.mk.inj hanswer
      exact .same rfl h
    | failed h hitem => exact .failed h hitem
    | doomed _ _ _ hdoomed => exact hdoomed.elim

/-! ## Merging sources -/

namespace Merge

variable {cmp : α → α → Ordering} {pull' : υ → StateM τ (Pulled α × υ)}
  {pull : υ → StateM σ (Pulled α × υ)}

/-- The merge has a failure to give before anything else. -/
def Doomed (cause : Failure) (m' _m : Merge υ α) : Prop :=
  m'.finished = false ∧ m'.parked = some cause

theorem prime_mirrored
    (hpull : ∀ u {t s}, Same t s → Alike Same After Never (pull' u t) (pull u s)) :
    ∀ (sources : List υ) (i : Nat) (heads : List (Nat × α)),
      Mirrored Same After False (fun cause x' _ => x'.1 = some cause)
        (prime cmp pull' i sources heads) (prime cmp pull i sources heads) := by
  intro sources
  induction sources with
  | nil => exact fun _ _ _ _ hs => .same rfl hs
  | cons u rest ih =>
    intro i heads t s hs
    have hfirst := hpull u hs
    simp only [prime]
    generalize pull' u t = p', pull u s = p at hfirst
    obtain ⟨⟨item', u'⟩, t'⟩ := p'
    obtain ⟨⟨item, v⟩, s'⟩ := p
    cases hfirst with
    | failed h hitem =>
      obtain rfl := hitem
      exact .failed h rfl
    | doomed _ _ _ hdoomed => exact hdoomed.elim
    | same hanswer h =>
      obtain ⟨rfl, rfl⟩ := Prod.mk.inj hanswer
      -- whether there was a head or not, the others are asked
      have hrest : ∀ heads, Told Same After False (fun cause x' _ => x'.1 = some cause)
          (((prime cmp pull' (i + 1) rest heads t').1.1, u' ::
            (prime cmp pull' (i + 1) rest heads t').1.2.1,
            (prime cmp pull' (i + 1) rest heads t').1.2.2),
            (prime cmp pull' (i + 1) rest heads t').2)
          (((prime cmp pull (i + 1) rest heads s').1.1, u' ::
            (prime cmp pull (i + 1) rest heads s').1.2.1,
            (prime cmp pull (i + 1) rest heads s').1.2.2),
            (prime cmp pull (i + 1) rest heads s').2) := by
        intro heads
        cases ih (i + 1) heads h with
        | same hanswer h => exact .same (by rw [hanswer]) h
        | tooLate hlate => exact hlate.elim
        | failed h hcut => exact .failed h hcut
      cases item' with
      | failure e => exact .same rfl h
      | value a => exact hrest _
      | ended => exact hrest _

theorem deliver_alike
    (hpull : ∀ u {t s}, Same t s → Alike Same After Never (pull' u t) (pull u s)) (m : Merge υ α)
    (hfinished : m.finished = false) {t : τ} {s : σ} (hs : Same t s) :
    Alike Same After Doomed (m.deliver cmp pull' t) (m.deliver cmp pull s) := by
  unfold deliver
  split
  · exact .same rfl hs
  · rename_i i a rest _
    split
    · exact .same rfl hs
    · rename_i u _
      have hnext := hpull u hs
      generalize pull' u t = p', pull u s = p at hnext
      obtain ⟨⟨item', u'⟩, t'⟩ := p'
      obtain ⟨⟨item, v⟩, s'⟩ := p
      cases hnext with
      | same hanswer h =>
        obtain ⟨rfl, rfl⟩ := Prod.mk.inj hanswer
        cases item' <;> exact .same rfl h
      | failed h hitem =>
        obtain rfl := hitem
        refine .doomed h rfl ?_ ⟨hfinished, rfl⟩
        cases item <;> rfl
      | doomed _ _ _ hdoomed => exact hdoomed.elim

/-- A failure met while the first heads are fetched comes out at once, one met while a successor is
fetched comes out next. -/
theorem next_alike
    (hpull : ∀ u {t s}, Same t s → Alike Same After Never (pull' u t) (pull u s)) (m : Merge υ α)
    {t : τ} {s : σ} (hs : Same t s) :
    Alike Same After Doomed (m.next cmp pull' t) (m.next cmp pull s) := by
  unfold next
  cases hfinished : m.finished with
  | true => exact .same rfl hs
  | false =>
    simp only [Bool.false_eq_true, if_false]
    cases hparked : m.parked with
    | some e => exact .same rfl hs
    | none =>
      simp only
      cases hprimed : m.primed with
      | true => exact deliver_alike hpull m hfinished hs
      | false =>
        have hprime : Told Same After False (fun cause x' _ => x'.1 = some cause)
            (prime cmp pull' 0 m.sources m.heads t) (prime cmp pull 0 m.sources m.heads s) :=
          prime_mirrored hpull m.sources 0 m.heads hs
        simp only [Bool.false_eq_true, if_false]
        generalize prime cmp pull' 0 m.sources m.heads t = p',
          prime cmp pull 0 m.sources m.heads s = p at hprime
        obtain ⟨⟨failure', sources', heads'⟩, t'⟩ := p'
        obtain ⟨⟨failure, sources, heads⟩, s'⟩ := p
        cases hprime with
        | same hanswer h =>
          obtain ⟨rfl, hrest⟩ := Prod.mk.inj hanswer
          obtain ⟨rfl, rfl⟩ := Prod.mk.inj hrest
          cases failure' with
          | some e => exact .same rfl h
          | none => exact deliver_alike hpull ⟨sources', heads', true, none, false⟩ rfl h
        | tooLate hlate => exact hlate.elim
        | @failed e h hcut =>
          obtain rfl : failure' = some (.ofBackend e) := hcut
          exact .failed h rfl

/-- A merge that is doomed gives its failure and asks nobody. -/
theorem next_of_doomed {cause : Failure} {m' m : Merge υ α} (h : Doomed cause m' m) (t : τ) :
    m'.next cmp pull' t =
      ((.failure cause, { m' with parked := none, finished := true }), t) := by
  simp [next, h.1, h.2]

end Merge

/-! ## Deliveries -/

/-- What a failure leaves of a delivery: its first rows. -/
def Delivery.CutShort (cause : Failure) (d' d : Delivery) : Prop :=
  d'.failure = some cause ∧ d'.rows <+: d.rows

theorem Delivery.cutShort_cons {cause : Failure} {d' d : Delivery} (h : CutShort cause d' d) (r : Row) :
    CutShort cause { d' with rows := r :: d'.rows } { d with rows := r :: d.rows } :=
  ⟨h.1, (List.prefix_cons_inj r).2 h.2⟩

/-- A delivery from a source that may become doomed misses the failure if it does not ask again, or
if the source has come to its end. -/
theorem deliverRows_mirrored {next' : υ → StateM τ (Pulled Row × υ)}
    {next : υ → StateM σ (Pulled Row × υ)} {Doomed : Failure → υ → υ → Prop}
    (hnext : ∀ u {t s}, Same t s → Alike Same After Doomed (next' u t) (next u s))
    (hdoomed : ∀ {e u' u}, Doomed (.ofBackend e) u' u → late ∧ ∀ {t} s, After e t →
      After e (next' u' t).2 ∧ ((next' u' t).1.1 = .failure (.ofBackend e) ∨
        (next' u' t).1.1 = .ended ∧ (next u s).1.1 = .ended)) :
    ∀ (budget before : Nat) (u : υ), Mirrored Same After late Delivery.CutShort
      (deliverRows next' .none budget before u) (deliverRows next .none budget before u) := by
  intro budget
  induction budget with
  | zero => exact fun _ _ _ _ hs => .same rfl hs
  | succ budget ih =>
    intro before u t s hs
    have hfirst := hnext u hs
    simp only [deliverRows]
    generalize next' u t = p', next u s = p at hfirst
    obtain ⟨⟨item', u'⟩, t'⟩ := p'
    obtain ⟨⟨item, v⟩, s'⟩ := p
    cases hfirst with
    | same hanswer h =>
      obtain ⟨rfl, rfl⟩ := Prod.mk.inj hanswer
      cases item' with
      | ended => exact .same rfl h
      | failure e => exact .same rfl h
      | value r =>
        cases ih (before + 1) u' h with
        | same hanswer h =>
          exact .same (congrArg (fun d => { d with rows := r :: d.rows }) hanswer) h
        | tooLate hlate hanswer hwhole h =>
          exact .tooLate hlate (congrArg (fun d => { d with rows := r :: d.rows }) hanswer)
            (fun cause hcut => hwhole cause ⟨hcut.1, List.prefix_refl _⟩) h
        | failed h hcut => exact .failed h (Delivery.cutShort_cons hcut r)
    | failed h hitem =>
      obtain rfl := hitem
      exact .failed h ⟨rfl, List.nil_prefix⟩
    | @doomed r e h hitem' hitem hdoom =>
      obtain rfl := hitem'
      obtain rfl := hitem
      obtain ⟨hlate, hnext'⟩ := hdoomed hdoom
      cases budget with
      | zero => exact .tooLate hlate rfl (fun _ hcut => by cases hcut.1) h
      | succ budget =>
        obtain ⟨hafter, hitem⟩ := hnext' s' h
        simp only [deliverRows, Reaction.none]
        generalize next' u' t' = p', next v s' = p at hafter hitem
        obtain ⟨⟨item', u''⟩, t''⟩ := p'
        obtain ⟨⟨item, v'⟩, s''⟩ := p
        rcases hitem with hfailure | ⟨hended', hended⟩
        · obtain rfl := hfailure
          exact .failed hafter ⟨rfl, (List.prefix_cons_inj r).2 List.nil_prefix⟩
        · obtain rfl := hended'
          obtain rfl := hended
          exact .tooLate hlate rfl (fun _ hcut => by cases hcut.1) hafter

/-- Parts that tell of a failure at once make a read that does. -/
theorem deliverInTurn_mirrored {ι : Type} {read' : ι → Nat → StateM τ Delivery}
    {read : ι → Nat → StateM σ Delivery}
    (hread : ∀ i before, Mirrored Same After False Delivery.CutShort (read' i before) (read i before))
    (is : List ι) : ∀ before : Nat, Mirrored Same After False Delivery.CutShort
      (deliverInTurn read' before is) (deliverInTurn read before is) := by
  induction is with
  | nil => exact fun _ _ _ hs => .same rfl hs
  | cons i rest ih =>
    intro before t s hs
    have hfirst := hread i before hs
    simp only [deliverInTurn]
    generalize read' i before t = p', read i before s = p at hfirst
    obtain ⟨⟨rows', failure'⟩, t'⟩ := p'
    obtain ⟨⟨rows, failure⟩, s'⟩ := p
    cases hfirst with
    | same hanswer h =>
      obtain ⟨rfl, rfl⟩ := Delivery.mk.inj hanswer
      cases failure' with
      | some e => exact .same rfl h
      | none =>
        cases ih (before + rows'.length) h with
        | same hanswer h =>
          exact .same (congrArg (fun d : Delivery => Delivery.mk (rows' ++ d.rows) d.failure) hanswer) h
        | tooLate hlate => exact hlate.elim
        | failed h hcut => exact .failed h ⟨hcut.1, (List.prefix_append_right_inj _).2 hcut.2⟩
    | tooLate hlate => exact hlate.elim
    | @failed e h hcut =>
      obtain ⟨hfailure, hprefix⟩ := hcut
      obtain rfl : failure' = some (.ofBackend e) := hfailure
      refine .failed h ⟨rfl, ?_⟩
      cases failure with
      | some e => exact hprefix
      | none => exact hprefix.trans (List.prefix_append ..)

/-! ## Reads of a database -/

namespace Database

/-- The same database on another backend. -/
def onto (db : Database σ) (b' : Backend τ) : Database τ where
  backend := b'
  capabilities := db.capabilities
  chunkSize := db.chunkSize
  minCombinedChunk := db.minCombinedChunk
  chunkSize_pos := db.chunkSize_pos
  minCombinedChunk_pos := db.minCombinedChunk_pos

variable {db : Database σ}

theorem drain_mirrored (hb : b'.Mirrors db.backend Same After) (series : SeriesId) (w : Window)
    (limit : Option Nat) (d : Direction) (before : Nat) :
    Mirrored Same After False Delivery.CutShort
      ((db.onto b').drain series w limit d .none before) (db.drain series w limit d .none before) :=
  deliverRows_mirrored (fun c => c.next_alike hb) (fun h => h.elim) _ _ _

/-- Only a merge fetches a row before it is asked for, so only here a failure can come too late. -/
theorem drainMerged_mirrored (hb : b'.Mirrors db.backend Same After) (series : List SeriesId)
    (w : Window) (limit : Option Nat) (d : Direction) :
    Mirrored Same After True Delivery.CutShort
      ((db.onto b').drainMerged series w limit d .none) (db.drainMerged series w limit d .none) :=
  deliverRows_mirrored (Merge.next_alike fun c => c.next_alike hb)
    (fun h => ⟨trivial, fun _ hafter => Merge.next_of_doomed h _ ▸ ⟨hafter, .inl rfl⟩⟩) _ _ _

end Database

end Reads

end Historian
