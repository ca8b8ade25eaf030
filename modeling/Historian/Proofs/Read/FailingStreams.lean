import Historian.Database.Streams
import Historian.Proofs.Read.Failing
import Historian.Proofs.Read.Source

/-!
# What streams tell of a failing scan

The user of a stream asks as often as he likes.  Whatever the store does, he gets the rows of one
delivery, then its failure if it has one, and after that nothing but the end.  So a stream over a store
that may fail is followed like any other read.

* `Stream.pullTimes_eq` — the answers of a stream are those of a delivery.
* `Stream.next_alike`, `Stream.next_of_doomed` — what one learns of a failure when asking a stream.
* `Database.pulled_mirrored`, `Database.pulled_answers` — opening a stream and asking it so many times.
-/

set_option autoImplicit false

namespace Historian

variable {σ τ : Type}

/-! ## The answers of a stream -/

/-- What one is answered who asks so many times: the rows, the failure if there is one, and then only
that there is nothing more. -/
def Delivery.answers (calls : Nat) (d : Delivery) : List (Pulled Row) :=
  (d.rows.map Pulled.value ++ d.failure.elim Pulled.ended Pulled.failure ::
    List.replicate calls Pulled.ended).take calls

theorem Delivery.answers_cons (calls : Nat) (r : Row) (rows : List Row) (failure : Option Failure) :
    (Delivery.mk (r :: rows) failure).answers (calls + 1) =
      .value r :: (Delivery.mk rows failure).answers calls := by
  simp only [answers, List.map_cons, List.cons_append, List.take_succ_cons]
  congr 1
  rw [List.replicate_succ', ← List.cons_append, ← List.append_assoc]
  exact List.take_append_of_le_length (by simp; omega)

namespace Stream

/-- A stream that gives no row is closed. -/
theorem next_closes (b : Backend σ) (t : Stream) (s : σ) :
    (∃ r, (t.next b s).1.1 = .value r) ∨ (t.next b s).1.2.body = none := by
  rcases t with ⟨body, lease, remaining⟩
  by_cases hzero : remaining = some 0
  · simp [next, hzero, close]
  · cases body with
    | none => simp [next, hzero]
    | some body =>
      simp only [next, hzero, if_false]
      rcases body.next b s with ⟨⟨item, body⟩, s⟩
      cases item with
      | value r => exact .inl ⟨r, rfl⟩
      | failure e => exact .inr rfl
      | ended => exact .inr rfl

theorem next_of_closed (b : Backend σ) {t : Stream} (h : t.body = none) (s : σ) :
    (t.next b s).1.1 = .ended ∧ (t.next b s).1.2.body = none := by
  by_cases hzero : t.remaining = some 0
  · simp [next, hzero, close]
  · simp [next, hzero, h]

theorem pullTimes_of_closed (b : Backend σ) (n : Nat) {t : Stream} (h : t.body = none) (s : σ) :
    (pullTimes (next b) n t s).1.1 = List.replicate n .ended := by
  have hstays : ∀ (t : Stream) (s : σ), t.body = none →
      (t.next b s).1.1 = .ended ∧ (t.next b s).1.2.body = none := fun _ s h => next_of_closed b h s
  exact pullTimes_of_finished hstays n h s

/-- Whatever the store does, the answers of a stream are those of one delivery. -/
theorem pullTimes_eq (b : Backend σ) (n : Nat) : ∀ (t : Stream) (before : Nat) (s : σ),
    (pullTimes (next b) n t s).1.1 =
      (deliverRows (next b) .none n before t s).1.answers n := by
  induction n with
  | zero => exact fun _ _ _ => rfl
  | succ n ih =>
    intro t before s
    have hcloses := next_closes b t s
    show (t.next b s).1.1 :: (pullTimes (next b) n (t.next b s).1.2 (t.next b s).2).1.1 = _
    simp only [deliverRows]
    generalize t.next b s = p at hcloses
    obtain ⟨⟨item, t'⟩, s'⟩ := p
    cases item with
    | value r =>
      rw [ih t' (before + 1) s']
      exact (Delivery.answers_cons ..).symm
    | ended =>
      have hclosed := hcloses.resolve_left (by simp)
      rw [pullTimes_of_closed b n hclosed]
      simp [Delivery.nothing, Delivery.answers]
    | failure e =>
      have hclosed := hcloses.resolve_left (by simp)
      rw [pullTimes_of_closed b n hclosed]
      simp [Delivery.refused, Delivery.answers]

end Stream

/-! ## Asking a stream -/

variable {Same : τ → σ → Prop} {After : BackendFailure → τ → Prop} {b' : Backend τ} {b : Backend σ}

namespace StreamBody

theorem nextInTurn_alike (hb : b'.Mirrors b Same After) (sources : List LimitedCursor) :
    ∀ {t : τ} {s : σ}, Same t s →
      Alike Same After Never (nextInTurn b' sources t) (nextInTurn b sources s) := by
  induction sources with
  | nil => exact fun hs => .same rfl hs
  | cons c rest ih =>
    intro t s hs
    have hfirst := c.next_alike hb hs
    simp only [nextInTurn]
    generalize c.next b' t = p', c.next b s = p at hfirst
    obtain ⟨⟨item', c'⟩, t'⟩ := p'
    obtain ⟨⟨item, d⟩, s'⟩ := p
    cases hfirst with
    | same hanswer h =>
      obtain ⟨rfl, rfl⟩ := Prod.mk.inj hanswer
      cases item' with
      | ended => exact ih h
      | value r => exact .same rfl h
      | failure e => exact .same rfl h
    | failed h hitem =>
      obtain rfl := hitem
      exact .failed h rfl
    | doomed _ _ _ hdoomed => exact hdoomed.elim

/-- The merge of the body is doomed. -/
def Doomed (cause : Failure) (body' _body : StreamBody) : Prop :=
  ∃ d m' m, body' = .merged d m' ∧ Merge.Doomed cause m' m

theorem next_alike (hb : b'.Mirrors b Same After) (body : StreamBody) {t : τ} {s : σ}
    (hs : Same t s) : Alike Same After Doomed (body.next b' t) (body.next b s) := by
  cases body with
  | inTurn sources =>
    have hnext := nextInTurn_alike hb sources hs
    cases hnext with
    | same hanswer h =>
      exact .same (congrArg (fun p : Pulled Row × _ => (p.1, inTurn p.2)) hanswer) h
    | failed h hitem => exact .failed h hitem
    | doomed _ _ _ hdoomed => exact hdoomed.elim
  | merged d m =>
    have hnext : Alike Same After Merge.Doomed (m.next d.compareRows (LimitedCursor.next b') t)
        (m.next d.compareRows (LimitedCursor.next b) s) :=
      Merge.next_alike (fun c => c.next_alike hb) m hs
    cases hnext with
    | same hanswer h =>
      exact .same (congrArg (fun p : Pulled Row × _ => (p.1, merged d p.2)) hanswer) h
    | failed h hitem => exact .failed h hitem
    | doomed h hitem' hitem hdoomed => exact .doomed h hitem' hitem ⟨d, _, _, rfl, hdoomed⟩

end StreamBody

namespace Stream

/-- The body of the stream is doomed; it is still to be seen whether the stream asks it again. -/
def Doomed (cause : Failure) (t' t : Stream) : Prop :=
  t'.remaining = t.remaining ∧
    ∃ body' body, t'.body = some body' ∧ StreamBody.Doomed cause body' body

theorem close_same (hb : b'.Mirrors b Same After) (t : Stream) {x : τ} {s : σ} (hs : Same x s) :
    Same (t.close b' x).2 (t.close b s).2 := by
  cases hlease : t.lease with
  | none => simpa [close, hlease] using hs
  | some l => simpa [close, hlease] using hb.releaseLease l hs

theorem close_after (hb : b'.Mirrors b Same After) (t : Stream) {e : BackendFailure} {x : τ}
    (h : After e x) : After e (t.close b' x).2 := by
  cases hlease : t.lease with
  | none => simpa [close, hlease] using h
  | some l => simpa [close, hlease] using hb.releaseLease_after l h

theorem next_alike (hb : b'.Mirrors b Same After) (t : Stream) {x : τ} {s : σ} (hs : Same x s) :
    Alike Same After Doomed (t.next b' x) (t.next b s) := by
  unfold next
  split
  · exact .same rfl (close_same hb t hs)
  · cases t.body with
    | none => exact .same rfl hs
    | some body =>
      have hnext := body.next_alike hb hs
      simp only
      generalize body.next b' x = p', body.next b s = p at hnext
      obtain ⟨⟨item', body'⟩, x'⟩ := p'
      obtain ⟨⟨item, body⟩, s'⟩ := p
      cases hnext with
      | same hanswer h =>
        obtain ⟨rfl, rfl⟩ := Prod.mk.inj hanswer
        cases item' with
        | value r => exact .same rfl h
        | ended => exact .same rfl (close_same hb _ h)
        | failure e => exact .same rfl (close_same hb _ h)
      | failed h hitem =>
        obtain rfl := hitem
        exact .failed (close_after hb _ h) rfl
      | doomed h hitem' hitem hdoomed =>
        obtain rfl := hitem'
        obtain rfl := hitem
        exact .doomed h rfl rfl ⟨rfl, _, _, rfl, hdoomed⟩

/-- A stream that is doomed gives its failure, unless it has used up its limit. -/
theorem next_of_doomed (hb : b'.Mirrors b Same After) {e : BackendFailure} {t' t : Stream}
    (h : Doomed (.ofBackend e) t' t) {x : τ} (s : σ) (hafter : After e x) :
    After e (t'.next b' x).2 ∧ ((t'.next b' x).1.1 = .failure (.ofBackend e) ∨
      (t'.next b' x).1.1 = .ended ∧ (t.next b s).1.1 = .ended) := by
  obtain ⟨hremaining, _, _, hbody, d, m', m, rfl, hmerge⟩ := h
  by_cases hzero : t.remaining = some 0
  · have hzero' := hremaining.trans hzero
    simp only [next, hzero, hzero', if_true]
    exact ⟨close_after hb _ hafter, .inr ⟨rfl, rfl⟩⟩
  · have hopen : t'.remaining ≠ some 0 := hremaining ▸ hzero
    simp only [next, hopen, if_false, hbody, StreamBody.next, Merge.next_of_doomed hmerge]
    exact ⟨close_after hb _ hafter, .inl rfl⟩

end Stream

/-! ## Streams of a database -/

namespace Database

variable {db : Database σ}

/-- Opening a stream scans nothing. -/
theorem openStream_mirrored (hb : b'.Mirrors db.backend Same After) (points : List Point)
    (start stop : Option Timestamp) (limit : Option Int) (d : Direction)
    (body : List LimitedCursor → StreamBody) (total : Option Nat → Option Nat) :
    Mirrored Same After False Never ((db.onto b').openStream points start stop limit d body total)
      (db.openStream points start stop limit d body total) := by
  intro t s hs
  unfold openStream
  cases checkArguments start stop limit with
  | error e => exact .same rfl hs
  | ok args =>
    obtain ⟨w, l⟩ := args
    simp only
    split
    · exact .same rfl hs
    · obtain ⟨hanswer, hs'⟩ := hb.openLease hs
      simp only [onto]
      generalize b'.openLease t = p', db.backend.openLease s = p at hanswer hs'
      obtain ⟨answer', t'⟩ := p'
      obtain ⟨answer, s'⟩ := p
      obtain rfl : answer' = answer := hanswer
      cases answer' with
      | error e => exact .same rfl hs'
      | ok lease => exact .same rfl hs'

/-- Opens a stream and asks it so many times. -/
def pulled (db : Database σ) (calls : Nat) (opened : StateM σ (Except Failure Stream)) :
    StateM σ Delivery := do
  match ← opened with
  | .error e => return .refused e
  | .ok t => deliverRows (Stream.next db.backend) .none calls 0 t

theorem pulled_mirrored (hb : b'.Mirrors db.backend Same After) (calls : Nat)
    {opened' : StateM τ (Except Failure Stream)} {opened : StateM σ (Except Failure Stream)}
    (hopened : Mirrored Same After False Never opened' opened) :
    Mirrored Same After True Delivery.CutShort ((db.onto b').pulled calls opened')
      (db.pulled calls opened) := by
  refine hopened.bind (fun answer => ?_) fun _ _ _ hnever => hnever.elim
  cases answer with
  | error e => exact Mirrored.pure _
  | ok t =>
    exact deliverRows_mirrored (fun t _ _ => Stream.next_alike hb t)
      (fun h => ⟨trivial, Stream.next_of_doomed hb h⟩) _ _ _

/-- What the user of an opened stream is answered. -/
theorem pulled_answers {opened : StateM σ (Except Failure Stream)} {s s' : σ} {t : Stream}
    (h : opened s = (.ok t, s')) (calls : Nat) :
    (pullTimes (Stream.next db.backend) calls t s').1.1 = (db.pulled calls opened s).1.answers calls := by
  rw [Stream.pullTimes_eq db.backend calls t 0 s']
  simp only [pulled, bind, StateT.bind, h]

end Database

end Historian
