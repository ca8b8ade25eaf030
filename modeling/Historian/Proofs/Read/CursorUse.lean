import Historian.Proofs.Read.Sweeping
import Historian.Proofs.Store.Changes

/-!
# Using a cursor while the store changes

The user of a cursor takes values or looks at the next one, and between two of his calls anything
may be done to the store.

* `Backend.ScansFrom` — what is asked of the store: a scan brings some first of the rows that it
  holds, if there is one at least one.
* `Cursor.fill_filled` — what a fetch does, said once: the buffer then holds what the store held,
  and nothing that it held is passed over.
* `Cursor.run_swept` — what a whole use of a cursor does, by induction on its calls.
* `Cursor.run_thorough` — the cursor gives each value once and in order, shows what it gives next,
  and ends for good.
-/

set_option autoImplicit false

namespace Historian

variable {σ : Type} {b : Backend σ} {d : Direction} {a : Archive} {c : Cursor} {s : σ}

/-- A scan of one series, made in this state, brings some first of the rows that the archive holds,
at least one where there is one. -/
def Backend.ScansFrom (b : Backend σ) (a : Archive) (s : σ) : Prop :=
  ∀ (series : SeriesId) (w : Window) (n : Nat) (d : Direction), 0 < n →
    ∃ k, 0 < k ∧ (b.scan ⟨[series], w, some n, d⟩ s).1 = ⟨(a.rows series w d).take k, none⟩

theorem Backend.ReadsFrom.scansFrom {Intact : σ → Prop} (h : b.ReadsFrom a Intact) (hs : Intact s) :
    b.ScansFrom a s := fun series w n d hn =>
  (h.scan s hs series w n d hn).imp fun _ hk => ⟨hk.1, hk.2.1⟩

namespace Cursor

/-! ## Calls -/

/-- What the user of a cursor asks for. -/
inductive Ask
  /-- The next value, taken. -/
  | next
  /-- The next value, left where it is. -/
  | peek
  deriving DecidableEq

/-- Asks a cursor. -/
def ask (b : Backend σ) (c : Cursor) : Ask → StateM σ (Pulled Row × Cursor)
  | .next => c.next b
  | .peek => c.peek b

/-- A call, and what has been done to the store since the last one. -/
structure Step (σ : Type) where
  change : σ → σ
  ask : Ask

/-- A call that has been answered. -/
structure Call (σ : Type) where
  ask : Ask
  answer : Pulled Row
  /-- The store as it was when the cursor was asked. -/
  found : σ
  /-- The store as the cursor left it. -/
  left : σ
  /-- How many scans the cursor asked for. -/
  scans : Nat

/-- Uses a cursor, and puts down every call. -/
def run (b : Backend σ) : List (Step σ) → Cursor → σ → List (Call σ)
  | [], _, _ => []
  | step :: rest, c, s =>
    let found := step.change s
    let ((answer, c'), left) := c.ask b step.ask found
    ⟨step.ask, answer, found, left, c'.fetches - c.fetches⟩ :: run b rest c' left

/-- The row that was taken. -/
def Call.taken? (call : Call σ) : Option Row :=
  match call.ask, call.answer with
  | .next, .value r => some r
  | _, _ => none

/-- The rows that were taken, in order. -/
def taken (calls : List (Call σ)) : List Row := calls.filterMap Call.taken?

/-- The store as it was when it was last scanned. -/
def lastScanned (calls : List (Call σ)) : Option σ :=
  (calls.filter fun call => call.scans ≠ 0).getLast?.map Call.found

/-! ## Fetching -/

/-- Either a value is at hand or there is none left. -/
def Settled (c : Cursor) : Prop := c.buffer ≠ [] ∨ c.exhausted = true

/-- What a cursor answers from its buffer. -/
def shown (c : Cursor) : Pulled Row := c.buffer.head?.elim .ended .value

/-- The cursor after that answer. -/
def after (c : Cursor) : Ask → Cursor
  | .next => { c with buffer := c.buffer.tail }
  | .peek => c

/-- Whatever is asked, a cursor fetches if it has to and then answers from its buffer. -/
theorem ask_of_fill {c' : Cursor} {s' : σ} (h : c.fill b s = ((none, c'), s')) (q : Ask) :
    c.ask b q s = ((c'.shown, c'.after q), s') := by
  obtain ⟨series, window, chunk, direction, buffer, exhausted, fetches⟩ := c'
  cases q <;> cases buffer <;> simp only [ask, next, peek, h] <;> rfl

/-- A settled cursor does not look at the store. -/
theorem ask_of_settled (b : Backend σ) (h : c.Settled) (s : σ) (q : Ask) :
    c.ask b q s = ((c.shown, c.after q), s) := ask_of_fill (if_pos h) q

theorem receive_settled (c : Cursor) (rows : List Row) : (c.receive rows).Settled := by
  cases hlast : rows.getLast? with
  | none =>
    rw [List.getLast?_eq_none_iff.1 hlast]
    exact .inr rfl
  | some last =>
    refine .inl ?_
    rw [buffer_receive]
    exact List.ne_nil_of_mem (List.mem_of_getLast? hlast)

/-- A fetch that does not fail leaves a cursor that knows what to answer. -/
theorem fill_settled {c' : Cursor} {s' : σ} (h : c.fill b s = ((none, c'), s')) : c'.Settled := by
  by_cases hready : c.Settled
  · have hfill : c.fill b s = ((none, c), s) := if_pos hready
    cases hfill.symm.trans h
    exact hready
  · have hfetch : ¬ (c.buffer ≠ [] ∨ c.exhausted = true) := hready
    rw [fill, if_neg hfetch] at h
    cases hfailure : (b.scan c.request s).1.failure with
    | none =>
      simp only [hfailure] at h
      cases h
      exact receive_settled ..
    | some e =>
      simp only [hfailure] at h
      cases h

/-- An answer that is no failure is that of a settled cursor. -/
theorem settled_of_ask {c' : Cursor} {s' : σ} {q : Ask} {item : Pulled Row}
    (h : c.ask b q s = ((item, c'), s')) (hitem : ∀ e, item ≠ .failure e) :
    ∃ c₁ : Cursor, c₁.Settled ∧ item = c₁.shown ∧ c' = c₁.after q := by
  rcases hfill : c.fill b s with ⟨⟨failure, c₁⟩, s₁⟩
  cases failure with
  | none =>
    rw [ask_of_fill hfill] at h
    cases h
    exact ⟨c₁, fill_settled hfill, rfl, rfl⟩
  | some e =>
    refine absurd ?_ (hitem e)
    cases q <;> simp only [ask, next, peek, hfill] at h <;> cases h <;> rfl

/-- Where a cursor has come to its end, there is nothing to take. -/
theorem after_of_shown_ended (h : c.shown = .ended) (q : Ask) : c.after q = c := by
  obtain ⟨series, window, chunk, direction, buffer, exhausted, fetches⟩ := c
  cases buffer with
  | nil => cases q <;> rfl
  | cons => cases h

/-- A cursor whose buffer holds what an archive held when it was fetched. -/
abbrev Buffers (a : Archive) (d : Direction) (c : Cursor) : Prop := c.Ready (fun _ => a) d 0

/-- An empty buffer holds what any archive held. -/
theorem Buffers.of_not_settled (h : c.Buffers a d) (hready : ¬ c.Settled) (a' : Archive) :
    c.Buffers a' d := by
  have hbuffer : c.buffer = [] := Classical.not_not.1 fun hne => hready (.inl hne)
  exact ⟨h.chunk_pos, h.direction, h.series, h.ordered, by simp [hbuffer], h.beyond⟩

/-- What a fetch has made of a cursor whose buffer was last fetched from `a`, the store holding
`now`: nothing if there was no need for it, or else a buffer fetched from `now`. -/
structure Filled (a now : Archive) (d : Direction) (c c' : Cursor) (a' : Archive) : Prop where
  buffers : c'.Buffers a' d
  scans : c'.fetches = c.fetches ∧ a' = a ∨ c'.fetches = c.fetches + 1 ∧ a' = now
  back : ∀ r, c'.Ahead r → c.Ahead r
  kept : ∀ r, now.Holds r → c.Ahead r → c'.Ahead r

theorem fill_filled {now : Archive} (hs : b.ScansFrom now s) (h : c.Buffers a d) :
    ∃ c' a' s', c.fill b s = ((none, c'), s') ∧ Filled a now d c c' a' := by
  by_cases hready : c.Settled
  · exact ⟨c, a, s, if_pos hready, h, .inl ⟨rfl, rfl⟩, fun _ hr => hr, fun _ _ hr => hr⟩
  · obtain ⟨k, hk, hscan⟩ := hs c.series c.window c.chunk c.direction h.chunk_pos
    obtain ⟨c', hfill, hfetches, hbuffers, -, hback, hkept⟩ :=
      fetch_ready (h.of_not_settled hready now) hready hk (Prod.ext hscan rfl)
    exact ⟨c', now, _, hfill, hbuffers, .inr ⟨hfetches, rfl⟩, hback, hkept⟩

/-- What an answer tells of a cursor whose buffer was last fetched from `a'`, the store holding
`now` when it was asked. -/
inductive Told (now : Archive) (d : Direction) (c : Cursor) (a' : Archive) (c' : Cursor) :
    Ask → Pulled Row → Prop
  | taken {x : Row} (held : a'.Holds x) (ahead : c.Ahead x)
      (on : ∀ r, c'.Ahead r → c.Ahead r ∧ d.compareTimes x.time r.time = .lt)
      (kept : ∀ r, now.Holds r → c.Ahead r → r = x ∨ c'.Ahead r) :
      Told now d c a' c' .next (.value x)
  | seen {x : Row} (held : a'.Holds x) (on : ∀ r, c'.Ahead r → c.Ahead r)
      (kept : ∀ r, now.Holds r → c.Ahead r → c'.Ahead r) : Told now d c a' c' .peek (.value x)
  | ended {q : Ask} (on : ∀ r, c'.Ahead r → c.Ahead r)
      (kept : ∀ r, now.Holds r → ¬ c.Ahead r) : Told now d c a' c' q .ended

theorem Told.answered {now a' : Archive} {c' : Cursor} {q : Ask} {item : Pulled Row}
    (h : Told now d c a' c' q item) (e : Failure) : item ≠ .failure e := by
  cases h <;> simp

theorem Told.held {now a' : Archive} {c' : Cursor} {q : Ask} {item : Pulled Row}
    (h : Told now d c a' c' q item) {r : Row} (hvalue : item = .value r) : a'.Holds r := by
  cases h with
  | taken held | seen held => exact Pulled.value.inj hvalue ▸ held
  | ended => cases hvalue

theorem Told.ended_of {now a' : Archive} {c' : Cursor} {q : Ask} {item : Pulled Row}
    (h : Told now d c a' c' q item) (hended : item = .ended) (r : Row) (hr : now.Holds r) :
    ¬ c.Ahead r := by
  cases h with
  | taken | seen => cases hended
  | ended _ kept => exact kept r hr

theorem ask_told {now : Archive} (hs : b.ScansFrom now s) (h : c.Buffers a d) (q : Ask) :
    ∃ item c' a' s', c.ask b q s = ((item, c'), s') ∧ c'.Buffers a' d ∧
      (c'.fetches = c.fetches ∧ a' = a ∨ c'.fetches = c.fetches + 1 ∧ a' = now) ∧
      Told now d c a' c' q item := by
  obtain ⟨c₁, a', s', hfill, hfilled⟩ := fill_filled hs h
  refine ⟨c₁.shown, c₁.after q, a', s', ask_of_fill hfill q, ?_⟩
  cases hbuffer : c₁.buffer with
  | nil =>
    have hended : c₁.exhausted = true := (fill_settled hfill).resolve_left (not_not_intro hbuffer)
    have hnone : ∀ r, ¬ c₁.Ahead r := fun r hr => by
      rcases hr with hr | ⟨hopen, -⟩
      · simp [hbuffer] at hr
      · simp [hended] at hopen
    have hshown : c₁.shown = .ended := by rw [shown, hbuffer]; rfl
    rw [after_of_shown_ended hshown, hshown]
    exact ⟨hfilled.buffers, hfilled.scans,
      .ended hfilled.back fun r hheld hr => hnone r (hfilled.kept r hheld hr)⟩
  | cons x rest =>
    have hmem : x ∈ c₁.buffer := hbuffer ▸ List.mem_cons_self
    have hheld : a'.Holds x := (hfilled.buffers.stored x hmem).elim fun _ hk => hk.2
    obtain ⟨hbuffers, hon, hkept⟩ := hfilled.buffers.tail hbuffer
    have hshown : c₁.shown = .value x := by rw [shown, hbuffer]; rfl
    rw [hshown]
    cases q with
    | next =>
      have hafter : c₁.after .next = { c₁ with buffer := rest } := by rw [after, hbuffer]; rfl
      rw [hafter]
      refine ⟨hbuffers, hfilled.scans, .taken hheld (hfilled.back x (.inl hmem))
        (fun r hr => (hon r hr).imp_left (hfilled.back r)) fun r hnow hr => ?_⟩
      exact hkept r (hfilled.kept r hnow hr)
    | peek => exact ⟨hfilled.buffers, hfilled.scans, .seen hheld hfilled.back hfilled.kept⟩

/-! ## Whole uses -/

/-- What the calls of a cursor come to whose buffer was last fetched from `a`. -/
structure Swept (contents : σ → Archive) (d : Direction) (a : Archive) (ahead : Row → Prop)
    (calls : List (Call σ)) : Prop where
  answered : ∀ call ∈ calls, ∀ e, call.answer ≠ .failure e
  ordered : (taken calls).Pairwise fun x y => d.compareTimes x.time y.time = .lt
  inside : ∀ r ∈ taken calls, ahead r
  fetched : ∀ before call later r, calls = before ++ call :: later → call.answer = .value r →
    ((lastScanned (before ++ [call])).elim a contents).Holds r
  complete : ∀ before call later, calls = before ++ call :: later → call.answer = .ended →
    ∀ r, ahead r → (∀ x ∈ before ++ [call], (contents x.found).Holds r) → r ∈ taken before

theorem lastScanned_cons (contents : σ → Archive) (call : Call σ) (calls : List (Call σ)) :
    (lastScanned (call :: calls)).elim a contents =
      (lastScanned calls).elim (if call.scans = 0 then a else contents call.found) contents := by
  by_cases hscans : call.scans = 0
  · simp [lastScanned, hscans]
  · rw [lastScanned, List.filter_cons_of_pos (by simpa using hscans), List.getLast?_cons,
      lastScanned, if_neg hscans]
    cases (calls.filter fun call => call.scans ≠ 0).getLast? <;> rfl

/-- A call that is made before others. -/
theorem Swept.cons {contents : σ → Archive} {a' : Archive} {c' : Cursor} {call : Call σ}
    {calls : List (Call σ)} (h : Swept contents d a' c'.Ahead calls)
    (htold : Told (contents call.found) d c a' c' call.ask call.answer)
    (hseen : (if call.scans = 0 then a else contents call.found) = a') :
    Swept contents d a c.Ahead (call :: calls) where
  answered e he f := by
    rcases List.mem_cons.1 he with rfl | he
    · exact htold.answered f
    · exact h.answered e he f
  ordered := by
    obtain ⟨q, item, found, left, scans⟩ := call
    cases htold with
    | taken _ _ on _ => exact List.pairwise_cons.2 ⟨fun r hr => (on r (h.inside r hr)).2, h.ordered⟩
    | seen => exact h.ordered
    | ended => cases q <;> exact h.ordered
  inside r hr := by
    obtain ⟨q, item, found, left, scans⟩ := call
    cases htold with
    | taken _ ahead on _ =>
      rcases List.mem_cons.1 hr with rfl | hr
      · exact ahead
      · exact (on r (h.inside r hr)).1
    | seen _ on _ => exact on r (h.inside r hr)
    | ended on _ => cases q <;> exact on r (h.inside r hr)
  fetched before e later r heq hvalue := by
    cases before with
    | nil =>
      obtain ⟨rfl, -⟩ := List.cons.inj heq
      rw [List.nil_append, lastScanned_cons, hseen]
      exact htold.held hvalue
    | cons first before =>
      obtain ⟨rfl, hrest⟩ := List.cons.inj heq
      rw [List.cons_append, lastScanned_cons, hseen]
      exact h.fetched before e later r hrest hvalue
  complete before e later heq hended r hr hheld := by
    cases before with
    | nil =>
      obtain ⟨rfl, -⟩ := List.cons.inj heq
      exact absurd hr (htold.ended_of hended r (hheld _ List.mem_cons_self))
    | cons first before =>
      obtain ⟨rfl, hrest⟩ := List.cons.inj heq
      have hfirst := hheld _ List.mem_cons_self
      have hlater := fun hr => h.complete before e later hrest hended r hr
        fun x hx => hheld x (List.mem_cons_of_mem _ hx)
      obtain ⟨q, item, found, left, scans⟩ := call
      cases htold with
      | taken _ _ _ kept =>
        rcases kept r hfirst hr with rfl | hr
        · exact List.mem_cons_self
        · exact List.mem_cons_of_mem _ (hlater hr)
      | seen _ _ kept => exact hlater (kept r hfirst hr)
      | ended _ kept => exact absurd hr (kept r hfirst)

theorem run_swept (contents : σ → Archive) (steps : List (Step σ)) :
    ∀ {c : Cursor} {a : Archive} {s : σ}, c.Buffers a d →
      (∀ call ∈ c.run b steps s, b.ScansFrom (contents call.found) call.found) →
      Swept contents d a c.Ahead (c.run b steps s) := by
  induction steps with
  | nil =>
    intro c a s _ _
    exact ⟨by simp [run], .nil, by simp [run, taken], by simp [run], by simp [run]⟩
  | cons step steps ih =>
    intro c a s h hscans
    have hs := hscans _ List.mem_cons_self
    obtain ⟨item, c', a', s', hask, hbuffers, hcount, htold⟩ := ask_told hs h step.ask
    simp only [run, hask] at hscans ⊢
    have hrest := ih hbuffers fun call hcall => hscans call (List.mem_cons_of_mem _ hcall)
    have hseen : (if c'.fetches - c.fetches = 0 then a else contents (step.change s)) = a' := by
      rcases hcount with ⟨hsame, rfl⟩ | ⟨hmore, rfl⟩
      · rw [if_pos (by omega)]
      · rw [if_neg (by omega)]
    exact hrest.cons htold hseen

/-- What is done after a call is done with a cursor too. -/
theorem run_eq_append {steps : List (Step σ)} {before later : List (Call σ)} {call : Call σ}
    (h : c.run b steps s = before ++ call :: later) :
    ∃ (c₁ c₂ : Cursor) (rest : List (Step σ)),
      c₁.ask b call.ask call.found = ((call.answer, c₂), call.left) ∧
        later = c₂.run b rest call.left := by
  induction before generalizing steps c s with
  | nil =>
    cases steps with
    | nil => cases h
    | cons step rest =>
      obtain ⟨rfl, rfl⟩ := List.cons.inj h
      exact ⟨c, _, rest, rfl, rfl⟩
  | cons first before ih =>
    cases steps with
    | nil => cases h
    | cons step rest => exact ih (List.cons.inj h).2

/-- As long as one only looks, one is shown the same. -/
theorem run_shown (hc : c.Settled) {steps : List (Step σ)} {between later : List (Call σ)}
    {call : Call σ} (h : c.run b steps s = between ++ call :: later)
    (hpeeks : ∀ p ∈ between, p.ask = .peek) : call.answer = c.shown := by
  induction between generalizing steps s with
  | nil =>
    cases steps with
    | nil => cases h
    | cons step rest =>
      simp only [run, ask_of_settled b hc] at h
      obtain ⟨rfl, -⟩ := List.cons.inj h
      rfl
  | cons first between ih =>
    cases steps with
    | nil => cases h
    | cons step rest =>
      simp only [run, ask_of_settled b hc] at h
      obtain ⟨rfl, hrest⟩ := List.cons.inj h
      have hpeek : step.ask = .peek := hpeeks _ List.mem_cons_self
      rw [hpeek] at hrest
      exact ih hrest fun p hp => hpeeks p (List.mem_cons_of_mem _ hp)

/-- A cursor that has come to its end stays there, and leaves the store alone. -/
theorem run_ended (hc : c.Settled) (hended : c.shown = .ended) (steps : List (Step σ)) :
    ∀ call ∈ c.run b steps s, call.answer = .ended ∧ call.scans = 0 ∧ call.left = call.found := by
  induction steps generalizing s with
  | nil => simp [run]
  | cons step rest ih =>
    intro call hcall
    simp only [run, ask_of_settled b hc, after_of_shown_ended hended] at hcall
    rcases List.mem_cons.1 hcall with rfl | hcall
    · exact ⟨hended, Nat.sub_self _, rfl⟩
    · exact ih call hcall

/-- What the use of a cursor on a window of a series comes to. -/
structure Thorough (contents : σ → Archive) (series : SeriesId) (w : Window) (d : Direction)
    (calls : List (Call σ)) : Prop where
  answered : ∀ call ∈ calls, ∀ e, call.answer ≠ .failure e
  ordered : (taken calls).Pairwise fun x y => d.compareTimes x.time y.time = .lt
  inside : ∀ r ∈ taken calls, r.series = series ∧ w.contains r.time = true
  /-- A value was stored when the store was last scanned, which is when the value was fetched. -/
  fetched : ∀ before call later r, calls = before ++ call :: later → call.answer = .value r →
    ∃ s, lastScanned (before ++ [call]) = some s ∧ (contents s).Holds r
  /-- What is stored all the time until the end is taken once. -/
  complete : ∀ before call later, calls = before ++ call :: later → call.answer = .ended →
    ∀ r : Row, r.series = series → w.contains r.time = true →
      (∀ x ∈ before ++ [call], (contents x.found).Holds r) → (taken calls).count r = 1
  /-- What is shown is what is taken next. -/
  peeked : ∀ before peek between next later,
    calls = before ++ peek :: between ++ next :: later → peek.ask = .peek →
      (∀ call ∈ between, call.ask = .peek) → next.answer = peek.answer
  /-- Once a cursor has come to its end it stays there, without another scan. -/
  fused : ∀ before ended later, calls = before ++ ended :: later → ended.answer = .ended →
    ∀ call ∈ later, call.answer = .ended ∧ call.scans = 0 ∧ call.left = call.found

/-- What is known of all calls together, and what a call tells of those after it. -/
theorem Swept.thorough {contents : σ → Archive} {series : SeriesId} {w : Window} {chunk : Nat}
    {steps : List (Step σ)} {calls : List (Call σ)}
    (h : Swept contents d .empty (onWindow series w chunk d).Ahead calls)
    (hrun : (onWindow series w chunk d).run b steps s = calls) :
    Thorough contents series w d calls where
  answered := h.answered
  ordered := h.ordered
  inside r hr := onWindow_ahead.1 (h.inside r hr)
  fetched before call later r heq hvalue := by
    have hheld := h.fetched before call later r heq hvalue
    cases hlast : lastScanned (before ++ [call]) with
    | none =>
      rw [hlast] at hheld
      simp [Archive.Holds, Archive.get?] at hheld
    | some s =>
      rw [hlast] at hheld
      exact ⟨s, rfl, hheld⟩
  complete before call later heq hended r hseries hin hheld := by
    have hbefore :=
      h.complete before call later heq hended r (onWindow_ahead.2 ⟨hseries, hin⟩) hheld
    have hmem : r ∈ taken calls := by
      rw [heq, taken, List.filterMap_append]
      exact List.mem_append_left _ hbefore
    have hnodup : (taken calls).Nodup := by
      refine h.ordered.imp fun {x y} hlt hsame => ?_
      have hself : d.compareTimes y.time y.time = .eq := Std.ReflCmp.compare_self
      rw [hsame, hself] at hlt
      cases hlt
    rw [hnodup.count, if_pos hmem]
  peeked before peek between next later heq hpeek hbetween := by
    subst heq
    have hitem := h.answered peek (by simp)
    rw [List.append_assoc] at hrun
    obtain ⟨c₁, c₂, rest, hask, hlater⟩ := run_eq_append hrun
    obtain ⟨c', hsettled, hshown, hafter⟩ := settled_of_ask hask hitem
    rw [hpeek] at hafter
    subst hafter
    exact (run_shown hsettled hlater.symm hbetween).trans hshown.symm
  fused before ended later heq hended := by
    subst heq
    have hitem := h.answered ended (by simp)
    obtain ⟨c₁, c₂, rest, hask, rfl⟩ := run_eq_append hrun
    obtain ⟨c', hsettled, hshown, rfl⟩ := settled_of_ask hask hitem
    have hnone : c'.shown = .ended := hshown.symm.trans hended
    rw [after_of_shown_ended hnone]
    exact run_ended hsettled hnone rest

/-- However the store changes between the calls: a cursor gives each value of its window once, in
order and as it was stored when it was fetched, shows what it gives next, and ends for good. -/
theorem run_thorough (b : Backend σ) (contents : σ → Archive) (series : SeriesId)
    (start stop : Option Timestamp) (chunk : Nat) (d : Direction) (hchunk : 0 < chunk)
    (hwindow : ∀ f t, start = some f → stop = some t → f ≤ t) :
    ∃ c, Cursor.start series start stop chunk d = .ok c ∧ ∀ (steps : List (Step σ)) (s : σ),
      (∀ call ∈ c.run b steps s, b.ScansFrom (contents call.found) call.found) →
      Thorough contents series ⟨start, stop⟩ d (c.run b steps s) := by
  have hfresh : (onWindow series ⟨start, stop⟩ chunk d).Buffers .empty d :=
    onWindow_ok series ⟨start, stop⟩ hchunk
  have hstart : Cursor.start series start stop chunk d =
      .ok (onWindow series ⟨start, stop⟩ chunk d) := by
    rw [Cursor.start, if_neg (Nat.ne_of_gt hchunk), Window.new_eq_ok hwindow]
    rfl
  refine ⟨_, hstart, fun steps s hscans => ?_⟩
  exact (run_swept contents steps hfresh hscans).thorough rfl

/-- Values at both ends of time, fetched one by one; the value that is shown is deleted before it is
taken, and another is written when the end has been reached. -/
theorem run_thorough_both_ends :
    let sample (t : Timestamp) : Sample := ⟨t, .flag true, none⟩
    let m : Memory := { Memory.new with
      archive := Archive.empty.putAll
        [(1, sample Int64.minValue), (1, sample 5), (1, sample Int64.maxValue)] }
    let steps : List (Step Memory) :=
      [⟨id, .next⟩, ⟨fun m => m.applyAll [.insert 1 (sample 3)], .peek⟩,
        ⟨fun m => m.applyAll [.deleteWithin 1 (.single 3)], .next⟩, ⟨id, .next⟩, ⟨id, .next⟩,
        ⟨id, .next⟩, ⟨fun m => m.applyAll [.insert 1 (sample 7)], .next⟩]
    let calls :=
      (onWindow 1 .all 2 .ascending).run (Memory.backend.mandatoryOnly (some 1) none) steps m
    ((taken calls).map Row.time = [Int64.minValue, 3, 5, Int64.maxValue] ∧
      (calls.map Call.scans) = [1, 1, 0, 1, 1, 0, 0]) ∧
      Thorough Memory.archive 1 .all .ascending calls := by
  intro sample m steps calls
  have hscans : ∀ call ∈ calls, call.found.failingScans = 0 := by decide +kernel
  obtain ⟨c, hstart, hrun⟩ := run_thorough (Memory.backend.mandatoryOnly (some 1) none)
    Memory.archive 1 none none 2 .ascending (by decide) (by simp)
  obtain rfl : onWindow 1 .all 2 .ascending = c := Except.ok.inj hstart
  exact ⟨by decide +kernel, hrun steps m fun call hcall =>
    (Memory.readsFrom_mandatoryOnly _ (by decide)).scansFrom ⟨hscans call hcall, rfl⟩⟩

end Cursor

end Historian
