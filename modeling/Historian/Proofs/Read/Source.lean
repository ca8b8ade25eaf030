import Historian.Proofs.Read.Rows
import Historian.Read.Stream

/-!
# Sources over a store that stays as it is

A source is asked for its next item in the state of a store.  `Yields` says which items it gives as
long as the store stays intact, whatever else happens to its state; every read is then followed
through the layers that it is made of.

* `Backend.ReadsFrom` — what a read needs of a backend: scans bring what the archive holds, perhaps
  less at once than asked for, but never nothing where there is something.
* `Cursor.yields` — a cursor gives the rows of its window, in whatever chunks they arrive.
* `LimitedCursor.yields`, `deliverRows_of_yields`, `Stream.take_of_yields` — the layers above it
  shorten what comes from below to the first items of the list, and do nothing else to it.
-/

set_option autoImplicit false

namespace Historian

variable {σ τ α β : Type}

/-- What follows a call begins with its answer, in the state that it has left. -/
theorem bind_run {x : StateM σ α} {f : α → StateM σ β} {a : α} {s s' : σ} (h : x s = (a, s')) :
    (x >>= f) s = f a s' := by
  simp only [bind, StateT.bind, h]

/-- As long as the state is intact, the source gives the items of the list one after the other, and
then says that it has ended. -/
def Yields (pull : τ → StateM σ (Pulled α × τ)) (Intact : σ → Prop) : τ → List α → Prop
  | t, [] => ∀ s, Intact s → (pull t s).1.1 = .ended ∧ Intact (pull t s).2
  | t, x :: xs => ∀ s, Intact s →
      (pull t s).1.1 = .value x ∧ Intact (pull t s).2 ∧ Yields pull Intact (pull t s).1.2 xs

/-- The first items of a list, as many as the limit allows. -/
def firstOf {α : Type} (limit : Option Nat) (xs : List α) : List α := limit.elim xs xs.take

@[simp] theorem firstOf_nil (limit : Option Nat) : firstOf limit ([] : List α) = [] := by
  cases limit <;> simp [firstOf]

@[simp] theorem firstOf_zero (xs : List α) : firstOf (some 0) xs = [] := rfl

theorem firstOf_cons {limit : Option Nat} (h : limit ≠ some 0) (x : α) (xs : List α) :
    firstOf limit (x :: xs) = x :: firstOf (limit.map (· - 1)) xs := by
  cases limit with
  | none => rfl
  | some n =>
    cases n with
    | zero => exact absurd rfl h
    | succ n => rfl

theorem firstOf_sublist (limit : Option Nat) (xs : List α) : (firstOf limit xs).Sublist xs := by
  cases limit with
  | none => exact List.Sublist.refl xs
  | some n => exact List.take_sublist n xs

/-- A source whose first answer is that of a source of the list gives the list as well. -/
theorem Yields.of_step {pull : τ → StateM σ (Pulled α × τ)} {Intact : σ → Prop} {t : τ}
    {xs : List α}
    (h : ∀ s, Intact s → ∃ t' s', Intact s' ∧ pull t s = pull t' s' ∧ Yields pull Intact t' xs) :
    Yields pull Intact t xs := by
  cases xs with
  | nil =>
    intro s hs
    obtain ⟨t', s', hs', heq, hyields⟩ := h s hs
    rw [heq]
    exact hyields s' hs'
  | cons x xs =>
    intro s hs
    obtain ⟨t', s', hs', heq, hyields⟩ := h s hs
    rw [heq]
    exact hyields s' hs'

/-- A source that has ended for good answers that whenever it is asked. -/
theorem pullTimes_of_finished {pull : τ → StateM σ (Pulled α × τ)} {Finished : τ → Prop}
    (h : ∀ t s, Finished t → (pull t s).1.1 = .ended ∧ Finished (pull t s).1.2) (n : Nat) :
    ∀ {t : τ}, Finished t → ∀ s : σ, (pullTimes pull n t s).1.1 = List.replicate n .ended := by
  induction n with
  | zero => exact fun _ _ => rfl
  | succ n ih =>
    intro t ht s
    obtain ⟨hitem, hrest⟩ := h t s ht
    show (pull t s).1.1 :: (pullTimes pull n (pull t s).1.2 (pull t s).2).1.1 = _
    rw [hitem, ih hrest, List.replicate_succ]

/-- What a read needs of a backend whose archive is `a` in every intact state. -/
structure Backend.ReadsFrom (b : Backend σ) (a : Archive) (Intact : σ → Prop) : Prop where
  /-- A scan of one series brings some first rows of those it is asked for, at least one. -/
  scan : ∀ s, Intact s → ∀ (series : SeriesId) (w : Window) (n : Nat) (d : Direction), 0 < n →
    ∃ k, 0 < k ∧ (b.scan ⟨[series], w, some n, d⟩ s).1 = ⟨(a.rows series w d).take k, none⟩ ∧
      Intact (b.scan ⟨[series], w, some n, d⟩ s).2
  openLease : ∀ s, Intact s → ∃ l, (b.openLease s).1 = .ok l ∧ Intact (b.openLease s).2
  releaseLease : ∀ l s, Intact s → Intact (b.releaseLease l s)

/-! ## The store in memory -/

namespace Memory

/-- The store holds `a` and no scan is going to fail. -/
def Intact (a : Archive) (m : Memory) : Prop := m.failingScans = 0 ∧ m.archive = a

theorem found_single (a : Archive) (series : SeriesId) (w : Window) (k : Nat) (d : Direction) :
    found a ⟨[series], w, some k, d⟩ = (a.rows series w d).take k := by
  have : SortedMap.distinct [series] = [series] := rfl
  simp [found, this]

theorem scan_intact {a : Archive} {m : Memory} (h : Intact a m) (request : Scan) :
    (scan request m).1 = ⟨found a request, none⟩ ∧ Intact a (scan request m).2 := by
  obtain ⟨hscans, rfl⟩ := h
  have hscan : scan request m = (⟨found m.archive request, none⟩, { m with scans := m.scans + 1 }) := by
    rw [scan]
    exact if_pos hscans
  rw [hscan]
  exact ⟨rfl, hscans, rfl⟩

theorem readsFrom (a : Archive) : backend.ReadsFrom a (Intact a) where
  scan m hm series w n d hn := by
    obtain ⟨hrows, hintact⟩ := scan_intact hm ⟨[series], w, some n, d⟩
    exact ⟨n, hn, by rw [← found_single]; exact hrows, hintact⟩
  openLease m hm := ⟨⟨true⟩, rfl, hm⟩
  releaseLease _ _ hm := hm

/-- A backend that caps its scans brings less at once, but still what the archive holds. -/
theorem readsFrom_mandatoryOnly (a : Archive) {cap : Nat} (hcap : 0 < cap) :
    (backend.mandatoryOnly (some cap) none).ReadsFrom a (Intact a) where
  scan m hm series w n d hn := by
    obtain ⟨hrows, hintact⟩ := scan_intact hm ⟨[series], w, some (min cap n), d⟩
    exact ⟨min cap n, by omega, by rw [← found_single]; exact hrows, hintact⟩
  openLease m hm := ⟨.detached, rfl, hm⟩
  releaseLease _ _ hm := hm

end Memory

/-! ## Cursors -/

namespace Cursor

variable {b : Backend σ} {a : Archive} {Intact : σ → Prop}

/-- The rows that a cursor has still to deliver. -/
def pending (a : Archive) (c : Cursor) : List Row :=
  c.buffer ++ if c.exhausted then [] else a.rows c.series c.window c.direction

/-- Taking in a chunk moves rows from the window to the buffer, and loses none. -/
theorem pending_receive {c : Cursor} {k : Nat} (hbuffer : c.buffer = [])
    (hexhausted : c.exhausted = false) (hk : 0 < k) :
    (c.receive ((a.rows c.series c.window c.direction).take k)).pending a = c.pending a := by
  obtain ⟨series, window, chunk, direction, buffer, exhausted, fetches⟩ := c
  obtain rfl : buffer = [] := hbuffer
  obtain rfl : exhausted = false := hexhausted
  have hsplit := List.take_append_drop k (a.rows series window direction)
  cases hlast : ((a.rows series window direction).take k).getLast? with
  | none =>
    have hnil : a.rows series window direction = [] := by
      have := List.take_eq_nil_iff.1 (List.getLast?_eq_none_iff.1 hlast)
      exact this.resolve_left (by omega)
    simp [receive, pending, hnil]
  | some last =>
    cases direction with
    | ascending =>
      cases hnext : Timestamp.next? last.time with
      | none =>
        have hdrop := Archive.drop_eq_nil_of_next?_eq_none hlast hnext
        rw [hdrop, List.append_nil] at hsplit
        simp only [receive, pending, hlast, hnext, List.nil_append, if_true, List.append_nil]
        exact hsplit
      | some next =>
        have hdrop := Archive.rows_after_ascending hlast hnext
        simp [receive, pending, hlast, hnext, hdrop]
    | descending =>
      have hdrop := Archive.rows_after_descending hlast
      simp [receive, pending, hlast, hdrop]

theorem buffer_receive (c : Cursor) (rows : List Row) : (c.receive rows).buffer = rows := by
  rw [receive]
  split
  · rfl
  · split
    · split <;> rfl
    · rfl

theorem chunk_receive (c : Cursor) (rows : List Row) : (c.receive rows).chunk = c.chunk := by
  rw [receive]
  split
  · rfl
  · split
    · split <;> rfl
    · rfl

/-- Filling the buffer keeps what is pending, and leaves it empty only where nothing is. -/
theorem fill_spec (hb : b.ReadsFrom a Intact) {c : Cursor} (hchunk : 0 < c.chunk) {s : σ}
    (hs : Intact s) :
    ∃ c' s', c.fill b s = ((none, c'), s') ∧ Intact s' ∧ c'.chunk = c.chunk ∧
      c'.pending a = c.pending a ∧ (c'.buffer = [] → c.pending a = []) := by
  by_cases hready : c.buffer ≠ [] ∨ c.exhausted = true
  · refine ⟨c, s, if_pos hready, hs, rfl, rfl, fun hnil => ?_⟩
    rcases hready with hbuffer | hexhausted
    · exact absurd hnil hbuffer
    · simp [pending, hnil, hexhausted]
  · obtain ⟨hbuffer, hexhausted⟩ : c.buffer = [] ∧ c.exhausted = false := by simpa using hready
    obtain ⟨k, hk, hrows, hintact⟩ := hb.scan s hs c.series c.window c.chunk c.direction hchunk
    refine ⟨{ c with fetches := c.fetches + 1 }.receive
      ((a.rows c.series c.window c.direction).take k), _, ?_, hintact, ?_, ?_, ?_⟩
    · rw [fill, if_neg hready]
      simp only [request, hrows]
    · exact chunk_receive ..
    · exact pending_receive hbuffer hexhausted hk
    · intro hnil
      rw [buffer_receive, List.take_eq_nil_iff] at hnil
      have := hnil.resolve_left (by omega)
      simp [pending, hbuffer, this]

/-- A cursor gives what is pending, one row after the other. -/
theorem yields (hb : b.ReadsFrom a Intact) {xs : List Row} :
    ∀ {c : Cursor}, 0 < c.chunk → c.pending a = xs → Yields (Cursor.next b) Intact c xs := by
  induction xs with
  | nil =>
    intro c hchunk hpending s hs
    obtain ⟨c', s', hfill, hs', -, hkept, -⟩ := fill_spec hb hchunk hs
    have hbuffer : c'.buffer = [] := by
      rw [hpending, pending] at hkept
      exact (List.append_eq_nil_iff.1 hkept).1
    simp only [next, hfill, hbuffer]
    exact ⟨trivial, hs'⟩
  | cons r rest ih =>
    intro c hchunk hpending s hs
    obtain ⟨c', s', hfill, hs', hsize, hkept, hdone⟩ := fill_spec hb hchunk hs
    cases hbuffer : c'.buffer with
    | nil => simp [hdone hbuffer] at hpending
    | cons r' buffer =>
      have hhead : r' = r ∧ buffer ++
          (if c'.exhausted then [] else a.rows c'.series c'.window c'.direction) = rest := by
        rw [hpending, pending, hbuffer] at hkept
        simpa using hkept
      obtain ⟨rfl, hrest⟩ := hhead
      simp only [next, hfill, hbuffer]
      exact ⟨trivial, hs', ih (hsize ▸ hchunk) hrest⟩

/-- A new cursor gives the rows of its window. -/
theorem onWindow_yields (hb : b.ReadsFrom a Intact) (series : SeriesId) (w : Window) {chunk : Nat}
    (hchunk : 0 < chunk) (d : Direction) :
    Yields (Cursor.next b) Intact (onWindow series w chunk d) (a.rows series w d) :=
  yields hb hchunk (by simp [onWindow, pending])

end Cursor

/-! ## What stands above a source -/

variable {b : Backend σ} {a : Archive} {Intact : σ → Prop}

/-- A limited cursor gives the first items of what its cursor gives. -/
theorem LimitedCursor.yields {xs : List Row} :
    ∀ {c : Cursor} {left : Option Nat}, Yields (Cursor.next b) Intact c xs →
      Yields (LimitedCursor.next b) Intact ⟨c, left⟩ (firstOf left xs) := by
  induction xs with
  | nil =>
    intro c left h
    rw [firstOf_nil]
    intro s hs
    obtain ⟨hitem, hs'⟩ := h s hs
    by_cases hleft : left = some 0
    · subst hleft
      exact ⟨rfl, hs⟩
    · simp only [LimitedCursor.next]
      exact ⟨hitem, hs'⟩
  | cons r rest ih =>
    intro c left h
    by_cases hleft : left = some 0
    · subst hleft
      exact fun s hs => ⟨rfl, hs⟩
    · rw [firstOf_cons hleft]
      intro s hs
      obtain ⟨hitem, hs', hrest⟩ := h s hs
      simp only [LimitedCursor.next]
      exact ⟨hitem, hs', ih hrest⟩

/-- A receiver that leaves the store alone leaves it intact. -/
theorem Reaction.none_intact (n : Nat) (r : Row) (s : σ) (hs : Intact s) :
    Intact (Reaction.none n r s) := hs

/-- Delivering hands over as many items of the list as the budget allows, and does not fail. -/
theorem deliverRows_of_yields {next : τ → StateM σ (Pulled Row × τ)} {react : Reaction σ}
    (hreact : ∀ n r s, Intact s → Intact (react n r s)) {budget : Nat} :
    ∀ (before : Nat) {t : τ} {xs : List Row} {s : σ}, Yields next Intact t xs → Intact s →
      (deliverRows next react budget before t s).1 = ⟨xs.take budget, none⟩ ∧
        Intact (deliverRows next react budget before t s).2 := by
  induction budget with
  | zero =>
    intro before t xs s _ hs
    exact ⟨rfl, hs⟩
  | succ budget ih =>
    intro before t xs s h hs
    rcases hnext : next t s with ⟨⟨item, t'⟩, s'⟩
    cases xs with
    | nil =>
      obtain ⟨hitem, hs'⟩ := h s hs
      rw [hnext] at hitem hs'
      obtain rfl : item = .ended := hitem
      simp only [deliverRows, hnext]
      exact ⟨rfl, hs'⟩
    | cons r rest =>
      obtain ⟨hitem, hs', hrest⟩ := h s hs
      rw [hnext] at hitem hs' hrest
      obtain rfl : item = .value r := hitem
      obtain ⟨hrows, hintact⟩ := ih (before + 1) hrest (hreact (before + 1) r s' hs')
      rcases hdeliver : deliverRows next react budget (before + 1) t' (react (before + 1) r s')
        with ⟨delivery, s''⟩
      rw [hdeliver] at hrows hintact
      obtain rfl : delivery = ⟨rest.take budget, none⟩ := hrows
      simp only [deliverRows, hnext, hdeliver]
      exact ⟨rfl, hintact⟩

/-- The body of a combined stream gives what its merge gives. -/
theorem StreamBody.merged_yields {d : Direction} {xs : List Row} :
    ∀ {m : Merge LimitedCursor Row},
      Yields (Merge.next d.compareRows (LimitedCursor.next b)) Intact m xs →
      Yields (StreamBody.next b) Intact (.merged d m) xs := by
  induction xs with
  | nil =>
    intro m h s hs
    exact h s hs
  | cons r rest ih =>
    intro m h s hs
    obtain ⟨hitem, hs', hrest⟩ := h s hs
    exact ⟨hitem, hs', ih hrest⟩

namespace Stream

theorem close_intact (hb : b.ReadsFrom a Intact) (t : Stream) {s : σ} (hs : Intact s) :
    Intact (t.close b s).2 := by
  cases hlease : t.lease with
  | none => simpa [close, hlease] using hs
  | some l => simpa [close, hlease] using hb.releaseLease l s hs

/-- A stream hands over the first items of what its body gives, and then it has ended. -/
theorem take_of_yields (hb : b.ReadsFrom a Intact) {n : Nat} :
    ∀ {body : StreamBody} (lease : Option Lease) (left : Option Nat) {xs : List Row} {s : σ},
      Yields (StreamBody.next b) Intact body xs → Intact s →
      (take b n ⟨some body, lease, left⟩ s).1.1 = ((firstOf left xs).take n).map .ok ∧
        Intact (take b n ⟨some body, lease, left⟩ s).2 := by
  induction n with
  | zero =>
    intro body lease left xs s _ hs
    exact ⟨rfl, hs⟩
  | succ n ih =>
    intro body lease left xs s h hs
    by_cases hleft : left = some 0
    · subst hleft
      have hclosed := close_intact hb ⟨some body, lease, some 0⟩ hs
      simp only [take, next, if_true]
      exact ⟨rfl, hclosed⟩
    · rcases hnext : body.next b s with ⟨⟨item, body'⟩, s'⟩
      cases xs with
      | nil =>
        obtain ⟨hitem, hs'⟩ := h s hs
        rw [hnext] at hitem hs'
        obtain rfl : item = .ended := hitem
        have hclosed := close_intact hb ⟨some body', lease, left⟩ hs'
        simp only [take, next, hleft, if_false, hnext, firstOf_nil]
        exact ⟨rfl, hclosed⟩
      | cons r rest =>
        obtain ⟨hitem, hs', hrest⟩ := h s hs
        rw [hnext] at hitem hs' hrest
        obtain rfl : item = .value r := hitem
        obtain ⟨hrows, hintact⟩ := ih lease (left.map (· - 1)) hrest hs'
        rcases htake : take b n ⟨some body', lease, left.map (· - 1)⟩ s' with ⟨⟨taken, t⟩, s''⟩
        rw [htake] at hrows hintact
        obtain rfl : taken = _ := hrows
        simp only [take, next, hleft, if_false, hnext, htake, firstOf_cons hleft]
        exact ⟨rfl, hintact⟩

end Stream

end Historian
