import Historian.Database.Streams

/-!
# Failures that the backend has met

A read passes on the failures of its scans and has none of its own.  This holds over any backend,
however its scans fail and whatever they bring.

* `AtMostBackend` — there is no failure, or it is one that the backend has met.
* `SoundSource`, `Cursor.next_sound`, `Merge.next_sound`, `Stream.next_sound` — sources without
  failures of their own.
* `deliverRows_atMostBackend`, `deliverInTurn_atMostBackend` — reads of such sources.
-/

set_option autoImplicit false

namespace Historian

variable {σ τ α ι : Type}

/-! ## Failures of the backend -/

/-- There is no failure, or it is one that the backend has met. -/
def AtMostBackend (failure : Option Failure) : Prop :=
  ∀ e, failure = some e → ∃ cause, e = .ofBackend cause

theorem AtMostBackend.none : AtMostBackend none := nofun

theorem AtMostBackend.ofBackend (cause : BackendFailure) :
    AtMostBackend (some (.ofBackend cause)) := by
  rintro _ ⟨⟩
  exact ⟨cause, rfl⟩

/-- The backend does not find fault with arguments. -/
theorem AtMostBackend.ne_invalidArgument {failure : Option Failure} (h : AtMostBackend failure)
    (cause : BadArgument) : failure ≠ some (.invalidArgument cause) := by
  intro hfailure
  obtain ⟨met, hmet⟩ := h _ hfailure
  cases met <;> cases hmet

/-- The failure of an answer. -/
def Pulled.failure? : Pulled α → Option Failure
  | .failure e => some e
  | _ => none

/-- A source that has no failures of its own, as long as it is in a `Good` state. -/
def SoundSource (Good : τ → Prop) (pull : τ → StateM σ (Pulled α × τ)) : Prop :=
  ∀ t s, Good t → AtMostBackend (pull t s).1.1.failure? ∧ Good (pull t s).1.2

namespace Cursor

theorem fill_atMostBackend (b : Backend σ) (c : Cursor) (s : σ) :
    AtMostBackend (c.fill b s).1.1 := by
  unfold fill
  split
  · exact .none
  · cases hfailure : (b.scan c.request s).1.failure with
    | none => simpa only [hfailure] using .none
    | some e => simpa only [hfailure] using .ofBackend e

theorem next_sound (b : Backend σ) : SoundSource (fun _ => True) (Cursor.next b) := by
  intro c s _
  have hfill := fill_atMostBackend b c s
  refine ⟨?_, trivial⟩
  rcases hcall : c.fill b s with ⟨⟨failure, c'⟩, s'⟩
  rw [hcall] at hfill
  cases failure with
  | none => cases hbuffer : c'.buffer <;> simp only [next, hcall, hbuffer] <;> exact .none
  | some e =>
    simp only [next, hcall]
    exact hfill

end Cursor

theorem LimitedCursor.next_sound (b : Backend σ) :
    SoundSource (fun _ => True) (LimitedCursor.next b) := by
  intro c s _
  refine ⟨?_, trivial⟩
  unfold next
  split
  · exact .none
  · exact (Cursor.next_sound b c.cursor s trivial).1

namespace Merge

variable {cmp : α → α → Ordering} {pull : τ → StateM σ (Pulled α × τ)}

/-- A merge that has no failure of its own to deliver. -/
def Good (m : Merge τ α) : Prop := AtMostBackend m.parked

theorem prime_atMostBackend (cmp : α → α → Ordering) (h : SoundSource (fun _ => True) pull)
    (sources : List τ) :
    ∀ (i : Nat) (heads : List (Nat × α)) (s : σ),
      AtMostBackend (prime cmp pull i sources heads s).1.1 := by
  induction sources with
  | nil => exact fun _ _ _ => .none
  | cons t rest ih =>
    intro i heads s
    have hpull := (h t s trivial).1
    rcases hcall : pull t s with ⟨⟨item, t'⟩, s'⟩
    rw [hcall] at hpull
    cases item with
    | failure e =>
      simp only [prime, hcall]
      exact hpull
    | value a =>
      simp only [prime, hcall]
      exact ih (i + 1) (insertHead cmp i a heads) s'
    | ended =>
      simp only [prime, hcall]
      exact ih (i + 1) heads s'

/-- A failure that is met after a row has been chosen is put aside. -/
theorem deliver_sound (h : SoundSource (fun _ => True) pull) :
    SoundSource Good (deliver cmp pull) := by
  intro m s hm
  cases hheads : m.heads with
  | nil =>
    simp only [deliver, hheads]
    exact ⟨.none, hm⟩
  | cons head rest =>
    obtain ⟨i, a⟩ := head
    cases hsource : m.sources[i]? with
    | none =>
      simp only [deliver, hheads, hsource]
      exact ⟨.none, hm⟩
    | some t =>
      have hpull := (h t s trivial).1
      rcases hcall : pull t s with ⟨⟨item, t'⟩, s'⟩
      rw [hcall] at hpull
      cases item <;> simp only [deliver, hheads, hsource, hcall]
      case value b => exact ⟨.none, hm⟩
      case failure e => exact ⟨.none, hpull⟩
      case ended => exact ⟨.none, hm⟩

theorem next_sound (h : SoundSource (fun _ => True) pull) :
    SoundSource Good (Merge.next cmp pull) := by
  intro m s hm
  by_cases hfinished : m.finished = true
  · simp only [next, hfinished, if_true]
    exact ⟨.none, hm⟩
  cases hparked : m.parked with
  | some e =>
    simp only [next, hfinished, hparked]
    rw [Good, hparked] at hm
    exact ⟨hm, .none⟩
  | none =>
    by_cases hprimed : m.primed = true
    · simp only [next, hfinished, hparked, hprimed, if_true]
      exact deliver_sound h m s hm
    · have hprime := prime_atMostBackend cmp h m.sources 0 m.heads s
      rcases hcall : prime cmp pull 0 m.sources m.heads s with ⟨⟨failure, sources, heads⟩, s'⟩
      rw [hcall] at hprime
      cases failure with
      | some e =>
        simp only [next, hfinished, hparked, hprimed, hcall]
        exact ⟨hprime, .none⟩
      | none =>
        simp only [next, hfinished, hparked, hprimed, hcall]
        exact deliver_sound h _ s' .none

end Merge

/-! ## Failures of reads -/

theorem deliverRows_atMostBackend {Good : τ → Prop} {pull : τ → StateM σ (Pulled Row × τ)}
    (h : SoundSource Good pull) (react : Reaction σ) (budget : Nat) :
    ∀ (before : Nat) {t : τ} (s : σ), Good t →
      AtMostBackend (deliverRows pull react budget before t s).1.failure := by
  induction budget with
  | zero => exact fun _ _ _ _ => .none
  | succ budget ih =>
    intro before t s ht
    obtain ⟨hitem, hgood⟩ := h t s ht
    rcases hpull : pull t s with ⟨⟨item, t'⟩, s'⟩
    rw [hpull] at hitem hgood
    cases item with
    | ended =>
      simp only [deliverRows, hpull]
      exact .none
    | failure e =>
      simp only [deliverRows, hpull]
      exact hitem
    | value r =>
      simp only [deliverRows, hpull]
      exact ih (before + 1) (react (before + 1) r s') hgood

theorem deliverInTurn_atMostBackend {read : ι → Nat → StateM σ Delivery}
    (h : ∀ i before s, AtMostBackend (read i before s).1.failure) (parts : List ι) :
    ∀ (before : Nat) (s : σ), AtMostBackend (deliverInTurn read before parts s).1.failure := by
  induction parts with
  | nil => exact fun _ _ => .none
  | cons i rest ih =>
    intro before s
    have hpart := h i before s
    rcases hread : read i before s with ⟨d, s'⟩
    rw [hread] at hpart
    cases hfailure : d.failure with
    | some e =>
      simp only [deliverInTurn, hread, hfailure]
      exact hfailure ▸ hpart
    | none =>
      simp only [deliverInTurn, hread, hfailure]
      exact ih (before + d.rows.length) s'

namespace StreamBody

/-- A body that has no failure of its own to deliver. -/
def Good : StreamBody → Prop
  | inTurn _ => True
  | merged _ m => m.Good

theorem nextInTurn_atMostBackend (b : Backend σ) (sources : List LimitedCursor) :
    ∀ s, AtMostBackend (nextInTurn b sources s).1.1.failure? := by
  induction sources with
  | nil => exact fun _ => .none
  | cons c rest ih =>
    intro s
    have hitem := (LimitedCursor.next_sound b c s trivial).1
    rcases hnext : c.next b s with ⟨⟨item, c'⟩, s'⟩
    rw [hnext] at hitem
    cases item with
    | ended =>
      simp only [nextInTurn, hnext]
      exact ih s'
    | value r =>
      simp only [nextInTurn, hnext]
      exact hitem
    | failure e =>
      simp only [nextInTurn, hnext]
      exact hitem

theorem next_sound (b : Backend σ) : SoundSource Good (StreamBody.next b) := by
  intro body s hbody
  cases body with
  | inTurn sources => exact ⟨nextInTurn_atMostBackend b sources s, trivial⟩
  | merged d m => exact Merge.next_sound (LimitedCursor.next_sound b) m s hbody

end StreamBody

namespace Stream

/-- A stream that has no failure of its own to deliver. -/
def Good (t : Stream) : Prop := ∀ body, t.body = some body → body.Good

theorem next_sound (b : Backend σ) : SoundSource Good (Stream.next b) := by
  intro t s ht
  have hclosed : ∀ (t : Stream) s, Good (t.close b s).1 := fun _ _ _ => nofun
  by_cases hzero : t.remaining = some 0
  · simp only [next, hzero, if_true]
    exact ⟨.none, hclosed t s⟩
  cases hbody : t.body with
  | none =>
    simp only [next, hzero, if_false, hbody]
    exact ⟨.none, ht⟩
  | some body =>
    obtain ⟨hitem, hgood⟩ := StreamBody.next_sound b body s (ht body hbody)
    rcases hcall : body.next b s with ⟨⟨item, body'⟩, s'⟩
    rw [hcall] at hitem hgood
    cases item <;> simp only [next, hzero, if_false, hbody, hcall]
    case value r => exact ⟨.none, fun _ h => Option.some.inj h ▸ hgood⟩
    case failure e => exact ⟨hitem, hclosed _ s'⟩
    case ended => exact ⟨.none, hclosed _ s'⟩

end Stream

end Historian
