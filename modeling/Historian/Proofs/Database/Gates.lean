import Historian.Database.Changes
import Historian.Proofs.Database.BackendFailures
import Historian.Proofs.Read.Combined
import Historian.Proofs.Read.FailingReads

/-!
# What a call looks at first

A call that is given a window, a limit or a size of batches looks at them before it does anything
else.  Once they are accepted it fails with nothing but what the backend has met, for what it sets up
by itself is always in order.

* `Arguments.IllFormed`, `Arguments.complaint?` — what can be wrong with arguments.
* `Gated`, `Admitted` — a call that looks at its arguments first, and one that has none to look at.
* `Database.inOrder` — the windows and cursors that a read sets up by itself.
-/

set_option autoImplicit false

namespace Historian

variable {σ α β ι : Type}

/-! ## Arguments -/

/-- What a call is given that may be wrong: the ends of a window, a limit and a size of batches, as
far as it is given them. -/
structure Arguments where
  start : Option Timestamp := none
  stop : Option Timestamp := none
  limit : Option Int := none
  batch : Option Nat := none

/-- What is wrong with the ends of a window. -/
def windowComplaint? : Option Timestamp → Option Timestamp → Option BadArgument
  | some f, some t => if t < f then some (.windowInverted f t) else none
  | _, _ => none

/-- What is wrong with a limit. -/
def limitComplaint? : Option Int → Option BadArgument
  | some l => if l < 0 then some (.negativeLimit l) else none
  | none => none

/-- The result of looking at arguments, when there is a complaint and when there is none. -/
def verdict (result : ι) : Option BadArgument → Except Failure ι
  | some c => .error (.invalidArgument c)
  | none => .ok result

theorem Window.new_eq_verdict (start stop : Option Timestamp) :
    Window.new start stop = verdict ⟨start, stop⟩ (windowComplaint? start stop) := by
  cases start with
  | none => cases stop <;> rfl
  | some f =>
    cases stop with
    | none => rfl
    | some t => by_cases hlt : t < f <;> simp [Window.new, windowComplaint?, hlt, verdict]

theorem checkLimit_eq_verdict (limit : Option Int) :
    Database.checkLimit limit = verdict (limit.map Int.toNat) (limitComplaint? limit) := by
  cases limit with
  | none => rfl
  | some l => by_cases hlt : l < 0 <;> simp [Database.checkLimit, limitComplaint?, hlt, verdict]

theorem exists_windowComplaint? {start stop : Option Timestamp} :
    (∃ c, windowComplaint? start stop = some c) ↔
      ∃ f t, start = some f ∧ stop = some t ∧ t < f := by
  cases start with
  | none => simp [windowComplaint?]
  | some f =>
    cases stop with
    | none => simp [windowComplaint?]
    | some t => by_cases hlt : t < f <;> simp [windowComplaint?, hlt]

theorem exists_limitComplaint? {limit : Option Int} :
    (∃ c, limitComplaint? limit = some c) ↔ ∃ l, limit = some l ∧ l < 0 := by
  cases limit with
  | none => simp [limitComplaint?]
  | some l => by_cases hlt : l < 0 <;> simp [limitComplaint?, hlt]

namespace Arguments

/-- A limit is negative, a window stops before it starts, or a batch is to hold nothing. -/
def IllFormed (a : Arguments) : Prop :=
  (∃ l, a.limit = some l ∧ l < 0) ∨ (∃ f t, a.start = some f ∧ a.stop = some t ∧ t < f) ∨
    a.batch = some 0

/-- The first thing that is wrong. -/
def complaint? (a : Arguments) : Option BadArgument :=
  (windowComplaint? a.start a.stop).or <| (limitComplaint? a.limit).or <|
    if a.batch = some 0 then some .zeroChunk else none

/-- There is something to complain of exactly when the arguments are not in order. -/
theorem exists_complaint? {a : Arguments} : (∃ c, a.complaint? = some c) ↔ a.IllFormed := by
  rw [IllFormed, ← exists_windowComplaint?, ← exists_limitComplaint?, complaint?]
  cases windowComplaint? a.start a.stop with
  | some c => simp
  | none =>
    cases limitComplaint? a.limit with
    | some c => simp
    | none => by_cases hbatch : a.batch = some 0 <;> simp [hbatch]

/-- Looking at arguments finds what is wrong with them, or has a result. -/
structure Checks (a : Arguments) (args : Except Failure ι) : Prop where
  refused : ∀ c, a.complaint? = some c → args = .error (.invalidArgument c)
  accepted : a.complaint? = none → ∃ i, args = .ok i

theorem Checks.of_verdict {a : Arguments} {args : Except Failure ι} (result : ι)
    (h : args = verdict result a.complaint?) : Checks a args where
  refused c hc := by rw [h, hc, verdict]
  accepted hc := ⟨result, by rw [h, hc, verdict]⟩

theorem Checks.window (start stop : Option Timestamp) :
    Checks { start, stop } (Window.new start stop) :=
  .of_verdict ⟨start, stop⟩ (by simp [Window.new_eq_verdict, complaint?, limitComplaint?])

theorem Checks.limit (limit : Option Int) : Checks { limit } (Database.checkLimit limit) :=
  .of_verdict (limit.map Int.toNat)
    (by simp [checkLimit_eq_verdict, complaint?, windowComplaint?])

theorem Checks.arguments (start stop : Option Timestamp) (limit : Option Int) :
    Checks { start, stop, limit } (Database.checkArguments start stop limit) := by
  refine .of_verdict (⟨start, stop⟩, limit.map Int.toNat) ?_
  rw [Database.checkArguments, Window.new_eq_verdict, checkLimit_eq_verdict, complaint?]
  cases windowComplaint? start stop with
  | some c => rfl
  | none => cases limitComplaint? limit <;> rfl

/-- A window without a start is in order, so only the limit can be wrong. -/
theorem Checks.limitBefore (stop : Timestamp) (limit : Option Int) :
    Checks { stop := some stop, limit }
      (do let l ← Database.checkLimit limit
          let w ← Window.new none (some stop)
          return (w, l)) := by
  refine .of_verdict (⟨none, some stop⟩, limit.map Int.toNat) ?_
  rw [checkLimit_eq_verdict, complaint?]
  cases limitComplaint? limit <;> rfl

/-- A check whose result is worked on. -/
theorem Checks.map {a : Arguments} {args : Except Failure α} (h : Checks a args) (f : α → β) :
    Checks a (do let i ← args; return f i) where
  refused c hc := by
    rw [h.refused c hc]
    rfl
  accepted hc := by
    obtain ⟨i, hi⟩ := h.accepted hc
    exact ⟨f i, by rw [hi]; rfl⟩

end Arguments

/-! ## Gates -/

/-- Answers that may be failures. -/
class Fallible (α : Type) where
  failure : α → Option Failure
  refused : Failure → α

instance : Fallible (Except Failure α) := ⟨fun
  | .ok _ => none
  | .error e => some e, .error⟩

instance : Fallible Delivery := ⟨Delivery.failure, .refused⟩

instance : Fallible WideRead := ⟨WideRead.failure, fun e => ⟨none, [], none, some e⟩⟩

instance : Fallible BookendRead := ⟨BookendRead.failure, fun e => ⟨[], some e⟩⟩

instance : Fallible Reading := ⟨Reading.failure, fun e => ⟨[], some e⟩⟩

section

open Fallible

variable [Fallible α] [Fallible β]

/-- A call that fails with nothing but what the backend has met. -/
def Admitted (x : StateM σ α) : Prop := ∀ s, AtMostBackend (failure (x s).1)

/-- A call that looks at its arguments before it does anything else. -/
structure Gated (a : Arguments) (x : StateM σ α) : Prop where
  refused : ∀ c, a.complaint? = some c → ∀ s, x s = (Fallible.refused (.invalidArgument c), s)
  accepted : a.complaint? = none → Admitted x

theorem Admitted.pure {v : α} (h : AtMostBackend (failure v)) :
    Admitted (Pure.pure v : StateM σ α) := fun _ => h

theorem Admitted.bind {x : StateM σ α} {k : α → StateM σ β} (hx : Admitted x)
    (hk : ∀ v, AtMostBackend (failure v) → Admitted (k v)) : Admitted (x >>= k) :=
  fun s => hk _ (hx s) _

/-- A call without arguments that could be wrong. -/
theorem Admitted.gated {x : StateM σ α} (h : Admitted x) : Gated {} x where
  refused c hc := by cases hc
  accepted _ := h

/-- The answer of a call, put into another form. -/
theorem Gated.map {a : Arguments} {x : StateM σ α} (h : Gated a x) {f : α → β}
    (hfailure : ∀ v, failure (f v) = failure v)
    (hrefused : ∀ e, f (Fallible.refused e) = Fallible.refused e) :
    Gated a (do let v ← x; return f v) where
  refused c hc s := (bind_run (h.refused c hc s)).trans (congrArg (·, s) (hrefused _))
  accepted hc := (h.accepted hc).bind fun v hv => .pure (by rwa [hfailure])

end

namespace Database

variable {db : Database σ}

theorem checked_gated {a : Arguments} {args : Except Failure ι} (hargs : a.Checks args)
    {read : ι → StateM σ Delivery} (hread : ∀ i, Admitted (read i)) :
    Gated a (checked args read) where
  refused c hc s := by
    rw [hargs.refused c hc]
    rfl
  accepted hc := by
    obtain ⟨i, hi⟩ := hargs.accepted hc
    rw [hi]
    exact hread i

theorem drain_admitted (db : Database σ) (series : SeriesId) (w : Window) (limit : Option Nat)
    (d : Direction) (react : Reaction σ) (before : Nat) :
    Admitted (db.drain series w limit d react before) := fun s =>
  deliverRows_atMostBackend (Cursor.next_sound db.backend) react _ before s trivial

theorem drainInTurn_admitted (db : Database σ) (series : List SeriesId) (w : Window)
    (limit : Option Nat) (d : Direction) (react : Reaction σ) :
    Admitted (db.drainInTurn series w limit d react) := fun s =>
  deliverInTurn_atMostBackend (fun i before s => db.drain_admitted i w limit d react before s)
    series 0 s

theorem drainMerged_admitted (db : Database σ) (series : List SeriesId) (w : Window)
    (limit : Option Nat) (d : Direction) (react : Reaction σ) :
    Admitted (db.drainMerged series w limit d react) := fun s =>
  deliverRows_atMostBackend (Merge.next_sound (Cursor.next_sound db.backend)) react _ 0 s .none

theorem perPoint_gated (db : Database σ) (points : List Point) (start stop : Option Timestamp)
    (limit : Option Int) (d : Direction) (react : Reaction σ) :
    Gated { start, stop, limit } (db.perPoint points start stop limit d react) :=
  checked_gated (.arguments start stop limit) fun (w, l) =>
    db.drainInTurn_admitted (seriesOf points) w l d react

theorem combined_gated (db : Database σ) (points : List Point) (start stop : Option Timestamp)
    (limit : Option Int) (d : Direction) (react : Reaction σ) :
    Gated { start, stop, limit } (db.combined points start stop limit d react) :=
  checked_gated (.arguments start stop limit) fun (w, l) =>
    db.drainMerged_admitted (seriesOf points) w l d react

theorem rangeWith_gated (db : Database σ) (p : Point) (start stop : Timestamp)
    (react : Reaction σ) :
    Gated { start := some start, stop := some stop } (db.rangeWith p start stop react) :=
  checked_gated (.window (some start) (some stop)) fun w =>
    db.drain_admitted p.series w none .ascending react 0

/-- Answers made of the rows of a delivery. -/
theorem toExcept_gated {a : Arguments} {x : StateM σ Delivery} (h : Gated a x)
    (f : List Row → α) :
    Gated a (do let d ← x; return d.toExcept.map f : StateM σ (Except Failure α)) := by
  refine h.map (fun d => ?_) fun _ => rfl
  obtain ⟨rows, failure⟩ := d
  cases failure <;> rfl

/-- Answers made of another answer. -/
theorem except_gated {a : Arguments} {x : StateM σ (Except Failure α)} (h : Gated a x)
    (f : α → β) :
    Gated a (do let r ← x; return r.map f : StateM σ (Except Failure β)) :=
  h.map (fun r => by cases r <;> rfl) fun _ => rfl

theorem collect_gated (db : Database σ) (p : Point) {a : Arguments}
    {args : Except Failure (Window × Option Nat)} (hargs : a.Checks args) (d : Direction) :
    Gated a (db.collect p args d) :=
  toExcept_gated (checked_gated hargs fun (w, l) => db.drain_admitted p.series w l d .none 0) _

theorem first_admitted (db : Database σ) (p : Point) (w : Window) (d : Direction) :
    Admitted (db.first p w d) := by
  have hargs : Arguments.Checks {} (.ok (w, some 1) : Except Failure (Window × Option Nat)) :=
    ⟨nofun, fun _ => ⟨_, rfl⟩⟩
  exact (except_gated (db.collect_gated p hargs d) _).accepted rfl

theorem extreme_admitted (db : Database σ) (points : List Point) (d : Direction) :
    Admitted (db.extreme points d) :=
  (toExcept_gated (db.combined_gated points none none (some 1) d .none) _).accepted rfl

theorem standingAt_admitted (db : Database σ) (points : List Point) (t : Timestamp) :
    Admitted (db.standingAt points t) :=
  (toExcept_gated (db.perPoint_gated points none (Timestamp.next? t) (some 1) .descending .none)
    _).accepted rfl

theorem span_admitted (db : Database σ) (points : List Point) : Admitted (db.span points) := by
  refine (db.extreme_admitted points .ascending).bind fun first hfirst => ?_
  cases first with
  | error e => exact .pure hfirst
  | ok first =>
    refine (db.extreme_admitted points .descending).bind fun last hlast => ?_
    cases last with
    | error e => exact .pure hlast
    | ok last => exact .pure .none

theorem wide_gated (db : Database σ) (p : Point) (start stop : Timestamp) :
    Gated { start := some start, stop := some stop } (db.wide p start stop) := by
  have hargs := Arguments.Checks.window (some start) (some stop)
  refine ⟨fun c hc s => ?_, fun hc => ?_⟩
  · rw [wide, hargs.refused c hc]
    rfl
  · obtain ⟨w, hw⟩ := hargs.accepted hc
    rw [wide, hw]
    refine (db.first_admitted p ⟨none, some start⟩ .descending).bind fun before hbefore => ?_
    cases before with
    | error e => exact .pure hbefore
    | ok before =>
      refine (db.drain_admitted p.series w none .ascending .none 0).bind fun body hbody => ?_
      cases hfailure : body.failure with
      | some e => exact .pure (hfailure ▸ hbody)
      | none =>
        refine (db.first_admitted p ⟨some stop, none⟩ .ascending).bind fun after hafter => ?_
        cases after with
        | error e => exact .pure hafter
        | ok after => exact .pure .none

theorem bookendRead_gated {points : List Point} {a : Arguments}
    {args : Except Failure (Window × Option Nat)} (hargs : a.Checks args)
    {read : Window → Option Nat → StateM σ BookendRead} (hread : ∀ w l, Admitted (read w l)) :
    Gated a (bookendRead points args read) where
  refused c hc s := by
    rw [hargs.refused c hc]
    rfl
  accepted hc := by
    obtain ⟨⟨w, l⟩, hi⟩ := hargs.accepted hc
    rw [hi, bookendRead]
    split
    · exact .pure .none
    · exact hread w l

theorem bookendsInTurn_admitted (db : Database σ) (w : Window) (start stop : Timestamp)
    (limit : Option Nat) (series : List SeriesId) (standing : Standing) :
    Admitted (db.bookendsInTurn w start stop limit series standing) := by
  induction series generalizing standing with
  | nil => exact .pure .none
  | cons id rest ih =>
    rw [bookendsInTurn]
    refine (db.drain_admitted id w limit .ascending .none 0).bind fun body hbody => ?_
    simp only
    cases hfailure : body.failure with
    | some e => exact .pure (hfailure ▸ hbody)
    | none => exact (ih _).bind fun others hothers => .pure hothers

theorem bookendsPerPoint_gated (db : Database σ) (points : List Point) (start stop : Timestamp)
    (limit : Option Int) :
    Gated { start := some start, stop := some stop, limit }
      (db.bookendsPerPoint points start stop limit) :=
  bookendRead_gated (.arguments (some start) (some stop) limit) fun w l => by
    refine (db.standingAt_admitted points start).bind fun standing hstanding => ?_
    cases standing with
    | error e => exact .pure hstanding
    | ok standing => exact db.bookendsInTurn_admitted w start stop l (seriesOf points) standing

theorem bookendsCombined_gated (db : Database σ) (points : List Point) (start stop : Timestamp)
    (limit : Option Int) :
    Gated { start := some start, stop := some stop, limit }
      (db.bookendsCombined points start stop limit) :=
  bookendRead_gated (.arguments (some start) (some stop) limit) fun w l => by
    refine (db.standingAt_admitted points start).bind fun standing hstanding => ?_
    cases standing with
    | error e => exact .pure hstanding
    | ok standing =>
      refine (db.drainMerged_admitted (seriesOf points) w l .ascending .none).bind
        fun body hbody => ?_
      simp only
      cases hfailure : body.failure with
      | some e => exact .pure (hfailure ▸ hbody)
      | none => exact .pure .none

/-- An opened stream has no failure of its own to deliver. -/
theorem openStream_good (db : Database σ) (points : List Point) {start stop : Option Timestamp}
    {limit : Option Int} {w : Window} {l : Option Nat}
    (hargs : checkArguments start stop limit = .ok (w, l)) (d : Direction)
    {body : List LimitedCursor → StreamBody} (hbody : ∀ cursors, (body cursors).Good)
    (total : Option Nat → Option Nat) (s : σ) :
    (∃ cause,
        (db.openStream points start stop limit d body total s).1 = .error (.ofBackend cause)) ∨
      ∃ t, (db.openStream points start stop limit d body total s).1 = .ok t ∧ t.Good := by
  simp only [openStream, hargs]
  by_cases hzero : l = some 0
  · rw [if_pos hzero]
    exact .inr ⟨.empty, rfl, fun _ h => by cases h⟩
  · rw [if_neg hzero]
    rcases db.backend.openLease s with ⟨answer, s'⟩
    cases answer with
    | error e => exact .inl ⟨e, rfl⟩
    | ok lease => exact .inr ⟨_, rfl, fun _ h => Option.some.inj h ▸ hbody _⟩

/-- A stream that is opened and asked so many times. -/
theorem pulled_gated (db : Database σ) (calls : Nat) (points : List Point)
    (start stop : Option Timestamp) (limit : Option Int) (d : Direction)
    (body : List LimitedCursor → StreamBody) (hbody : ∀ cursors, (body cursors).Good)
    (total : Option Nat → Option Nat) :
    Gated { start, stop, limit }
      (db.pulled calls (db.openStream points start stop limit d body total)) := by
  have hargs := Arguments.Checks.arguments start stop limit
  refine ⟨fun c hc s => ?_, fun hc s => ?_⟩
  · have hopen : db.openStream points start stop limit d body total s =
        (.error (.invalidArgument c), s) := by
      rw [openStream, hargs.refused c hc]
    exact bind_run hopen
  · obtain ⟨⟨w, l⟩, hi⟩ := hargs.accepted hc
    have hopened := db.openStream_good points hi d hbody total s
    rcases hopen : db.openStream points start stop limit d body total s with ⟨answer, s'⟩
    rw [hopen] at hopened
    rw [pulled, bind_run hopen]
    rcases hopened with ⟨cause, rfl⟩ | ⟨t, rfl, ht⟩
    · exact .ofBackend cause
    · exact deliverRows_atMostBackend (Stream.next_sound db.backend) .none calls 0 s' ht

/-! ## Changes -/

theorem call_admitted (action : Action σ α) : Admitted (call action) := by
  intro s
  rcases hcall : action s with ⟨answer, s'⟩
  simp only [call, hcall]
  cases answer with
  | ok a => exact .none
  | error e => exact .ofBackend e

/-- A call that needs what has not been declared is refused. -/
theorem callWith_of_lacking {c : Capability} (h : db.capabilities.supports c = false)
    (action : Action σ α) (s : σ) : db.callWith c action s = (.error (.unsupported c), s) := by
  simp [callWith, require, h]

theorem callWith_admitted (db : Database σ) (c : Capability) (action : Action σ α) :
    Admitted (db.callWith c action) := by
  intro s
  cases hsupports : db.capabilities.supports c with
  | false =>
    rw [callWith_of_lacking hsupports]
    exact .ofBackend (.unsupported c)
  | true =>
    simp only [callWith, require, hsupports, if_true]
    exact call_admitted action s

theorem saveBatches_admitted (db : Database σ) (batches : List (List (SeriesId × Sample))) :
    ∀ saved, Admitted (db.saveBatches batches saved) := by
  induction batches with
  | nil => exact fun _ _ => .none
  | cons batch rest ih =>
    intro saved s
    rcases hinsert : db.backend.insertBatch batch s with ⟨answer, s'⟩
    cases answer with
    | error e =>
      simp only [saveBatches, hinsert]
      exact .ofBackend e
    | ok _ =>
      simp only [saveBatches, hinsert]
      exact ih _ s'

theorem saveBatch_gated (db : Database σ) (rows : List (SeriesId × Sample)) (chunk : Nat) :
    Gated { batch := some chunk } (db.saveBatch rows chunk) := by
  unfold saveBatch
  by_cases hchunk : chunk = 0
  · subst hchunk
    refine ⟨fun c hc s => ?_, nofun⟩
    cases hc
    rfl
  · rw [if_neg hchunk]
    refine ⟨fun c hc => ?_, fun _ => db.saveBatches_admitted _ 0⟩
    simp [Arguments.complaint?, windowComplaint?, limitComplaint?, hchunk] at hc

theorem deleteBetween_gated (db : Database σ) (p : Point) (start stop : Option Timestamp) :
    Gated { start, stop } (db.deleteBetween p start stop) := by
  have hargs := Arguments.Checks.window start stop
  refine ⟨fun c hc s => ?_, fun hc => ?_⟩
  · rw [deleteBetween, hargs.refused c hc]
    rfl
  · obtain ⟨w, hw⟩ := hargs.accepted hc
    rw [deleteBetween, hw]
    exact db.callWith_admitted .delete _

theorem deleteBetween_of_lacking (h : db.capabilities.supports .delete = false) (p : Point)
    (start stop : Option Timestamp) (hargs : ({ start, stop } : Arguments).complaint? = none)
    (s : σ) : db.deleteBetween p start stop s = (.error (.unsupported .delete), s) := by
  obtain ⟨w, hw⟩ := (Arguments.Checks.window start stop).accepted hargs
  rw [deleteBetween, hw]
  exact callWith_of_lacking h _ s

theorem windowComplaint?_single (t : Timestamp) :
    windowComplaint? (some t) (Timestamp.next? t) = none := by
  cases hnext : Timestamp.next? t with
  | none => rfl
  | some t' =>
    have hlt : t < t' := (Timestamp.le_iff_of_next? hnext).1 (Std.le_refl t')
    have hle : ¬ t' < t := by grind
    exact if_neg hle

theorem complaint?_single (t : Timestamp) :
    ({ start := some t, stop := Timestamp.next? t } : Arguments).complaint? = none := by
  rw [Arguments.complaint?, windowComplaint?_single]
  rfl

/-- What a read sets up by itself is in order: the windows that it derives from a time, up to both
ends of time, and the cursors over a window that has been accepted. -/
structure InOrder (db : Database σ) : Prop where
  windows : ∀ t, Window.new none (some t) = .ok ⟨none, some t⟩ ∧
    Window.new (some t) none = .ok ⟨some t, none⟩ ∧
    Window.new (some t) (Timestamp.next? t) = .ok (.single t) ∧
    Window.new none (Timestamp.next? t) = .ok ⟨none, Timestamp.next? t⟩
  cursors : ∀ (start stop : Option Timestamp) (w : Window), Window.new start stop = .ok w →
    ∀ (series : SeriesId) (limit : Option Nat) (points : Nat) (d : Direction),
      Cursor.start series w.start w.stop (db.limitedChunk limit) d =
          .ok (.onWindow series w (db.limitedChunk limit) d) ∧
        Cursor.start series w.start w.stop (db.combinedChunk limit points) d =
          .ok (.onWindow series w (db.combinedChunk limit points) d)

theorem start_eq_ok {start stop : Option Timestamp} {w : Window} (h : Window.new start stop = .ok w)
    (series : SeriesId) {chunk : Nat} (hchunk : 0 < chunk) (d : Direction) :
    Cursor.start series w.start w.stop chunk d = .ok (.onWindow series w chunk d) := by
  obtain rfl := Window.eq_of_new h
  rw [Cursor.start, if_neg (Nat.ne_of_gt hchunk), h]
  rfl

theorem inOrder (db : Database σ) : db.InOrder where
  windows t := by
    refine ⟨rfl, rfl, ?_, rfl⟩
    rw [Window.new_eq_verdict, windowComplaint?_single]
    rfl
  cursors start stop w h series limit points d :=
    ⟨start_eq_ok h series (db.limitedChunk_pos limit) d,
      start_eq_ok h series (db.combinedChunk_pos limit points) d⟩

end Database

end Historian
