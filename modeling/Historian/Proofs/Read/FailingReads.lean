import Historian.Proofs.Read.FailingStreams

/-!
# What reads tell of a failing scan

Every read of a database is made of deliveries, one after the other.  All of them but a merge tell of
a failure at once, and a merge is the last one but in a span, so a read that ends well is complete, and
one that fails has handed over the first part of what there was.

* `Refused`, `WideRead.CutShort`, `BookendRead.CutShort` — what a failure leaves of a read.
* `Report`, `Reading` — what any read hands over, piece by piece.
* `Inquiry.run_mirrored` — how a read ends, whether it returns its rows, hands them over or streams
  them.
* `Database.span_mirrored` — a span is two merges: what the first of them has missed may be followed by
  a failure of the second.
-/

set_option autoImplicit false

namespace Historian

variable {σ τ α β : Type} {Same : τ → σ → Prop} {After : BackendFailure → τ → Prop} {late : Prop}
  {b' : Backend τ} {db : Database σ}

/-! ## Reads that return a value -/

/-- A read that returns one value returns the failure in its place. -/
def Refused (cause : Failure) (x' _x : Except Failure α) : Prop := x' = .error cause

theorem Refused.map {cause : Failure} {x' x : Except Failure α} (h : Refused cause x' x) (f : α → β) :
    Refused cause (x'.map f) (x.map f) := congrArg (Except.map f) h

theorem Refused.of_map {cause : Failure} {x : Except Failure α} {f : α → β}
    (h : Refused cause (x.map f) (x.map f)) : Refused cause x x := by
  cases x with
  | error e =>
    cases h
    rfl
  | ok a => cases h

theorem Delivery.refused_toExcept {cause : Failure} {d' d : Delivery} (h : d'.CutShort cause d)
    (f : List Row → α) : Refused cause (d'.toExcept.map f) (d.toExcept.map f) := by
  rw [Refused, toExcept, h.1]
  rfl

theorem Delivery.cutShort_of_refused {cause : Failure} {d : Delivery} {f : List Row → α}
    (h : Refused cause (d.toExcept.map f) (d.toExcept.map f)) : d.CutShort cause d := by
  obtain ⟨rows, failure⟩ := d
  cases failure with
  | none => cases h
  | some e =>
    cases h
    exact ⟨rfl, List.prefix_refl _⟩

/-- A read that returns something of what it was handed over. -/
theorem Mirrored.returned {x' : StateM τ Delivery} {x : StateM σ Delivery}
    (h : Mirrored Same After late Delivery.CutShort x' x) (f : List Row → α) :
    Mirrored Same After late Refused (do let d ← x'; return d.toExcept.map f)
      (do let d ← x; return d.toExcept.map f) :=
  h.map _ (fun _ _ _ hcut => Delivery.refused_toExcept hcut f)
    fun _ _ hcut => Delivery.cutShort_of_refused hcut

/-- A read that returns something of what another returns. -/
theorem Mirrored.derived {x' : StateM τ (Except Failure α)} {x : StateM σ (Except Failure α)}
    (h : Mirrored Same After late Refused x' x) (f : α → β) :
    Mirrored Same After late Refused (do let r ← x'; return r.map f) (do let r ← x; return r.map f) :=
  h.map _ (fun _ _ _ hcut => hcut.map f) fun _ _ hcut => hcut.of_map

/-! ## Reads in parts -/

/-- One piece of what a read hands over. -/
inductive Report
  | sample (v : Sample)
  | row (r : Row)
  /-- The value just before a window. -/
  | before (r : Row)
  /-- The first value after a window. -/
  | after (r : Row)
  | event (e : BookendEvent)
  | standing (b : Bookend)
  | total (n : Nat)
  | time (t : Timestamp)
  deriving DecidableEq

/-- What a wide read hands over, in order. -/
def WideRead.reports (r : WideRead) : List Report :=
  (r.first.map .before).toList ++ r.rows.map .row ++ (r.last.map .after).toList

theorem WideRead.reports_prefix {first last : Option Row} {rows' rows : List Row}
    {failure' failure : Option Failure} (h : rows' <+: rows) :
    (WideRead.mk first rows' none failure').reports <+: (WideRead.mk first rows last failure).reports := by
  rw [reports, reports, Option.map_none, Option.toList_none, List.append_nil, List.append_assoc]
  exact (List.prefix_append_right_inj _).2 ((h.map _).trans (List.prefix_append ..))

/-- What a failure leaves of a wide read. -/
def WideRead.CutShort (cause : Failure) (r' r : WideRead) : Prop :=
  r'.failure = some cause ∧ r'.reports <+: r.reports

/-- What a failure leaves of a bookend read. -/
def BookendRead.CutShort (cause : Failure) (r' r : BookendRead) : Prop :=
  r'.failure = some cause ∧ r'.events <+: r.events

/-- Fewer rows are followed by fewer reports. -/
theorem Standing.follow_prefix {rows' rows : List Row} (h : rows' <+: rows) (standing : Standing) :
    (follow rows' standing).1 <+: (follow rows standing).1 := by
  induction rows' generalizing rows standing with
  | nil => exact List.nil_prefix
  | cons r rest' ih =>
    obtain ⟨rest, rfl, hrest⟩ := List.cons_prefix_iff.1 h
    rw [follow, follow]
    split
    · exact (List.prefix_cons_inj r).2 (ih hrest _)
    · exact ih hrest _

namespace Database

theorem checked_mirrored {ι : Type} {args : Except Failure ι} {read' : ι → StateM τ Delivery}
    {read : ι → StateM σ Delivery}
    (hread : ∀ i, Mirrored Same After late Delivery.CutShort (read' i) (read i)) :
    Mirrored Same After late Delivery.CutShort (checked args read') (checked args read) := by
  cases args with
  | error e => exact Mirrored.pure _
  | ok i => exact hread i

theorem perPoint_mirrored (hb : b'.Mirrors db.backend Same After) (points : List Point)
    (start stop : Option Timestamp) (limit : Option Int) (d : Direction) :
    Mirrored Same After False Delivery.CutShort
      ((db.onto b').perPoint points start stop limit d .none)
      (db.perPoint points start stop limit d .none) :=
  checked_mirrored fun (w, l) => deliverInTurn_mirrored
    (fun s before => drain_mirrored hb s w l d before) _ _

theorem combined_mirrored (hb : b'.Mirrors db.backend Same After) (points : List Point)
    (start stop : Option Timestamp) (limit : Option Int) (d : Direction) :
    Mirrored Same After True Delivery.CutShort
      ((db.onto b').combined points start stop limit d .none)
      (db.combined points start stop limit d .none) :=
  checked_mirrored fun (w, l) => drainMerged_mirrored hb _ w l d

theorem rangeWith_mirrored (hb : b'.Mirrors db.backend Same After) (p : Point)
    (start stop : Timestamp) :
    Mirrored Same After False Delivery.CutShort ((db.onto b').rangeWith p start stop .none)
      (db.rangeWith p start stop .none) :=
  checked_mirrored fun w => drain_mirrored hb p.series w none .ascending 0

theorem collect_mirrored (hb : b'.Mirrors db.backend Same After) (p : Point)
    (args : Except Failure (Window × Option Nat)) (d : Direction) :
    Mirrored Same After False Refused ((db.onto b').collect p args d) (db.collect p args d) :=
  (checked_mirrored fun (w, l) => drain_mirrored hb p.series w l d 0).returned _

theorem count_mirrored (hb : b'.Mirrors db.backend Same After) (p : Point)
    (start stop : Option Timestamp) :
    Mirrored Same After False Refused ((db.onto b').count p start stop) (db.count p start stop) :=
  (collect_mirrored hb p _ .ascending).derived _

theorem first_mirrored (hb : b'.Mirrors db.backend Same After) (p : Point) (w : Window)
    (d : Direction) : Mirrored Same After False Refused ((db.onto b').first p w d) (db.first p w d) :=
  (collect_mirrored hb p _ d).derived _

theorem inception_mirrored (hb : b'.Mirrors db.backend Same After) (p : Point) :
    Mirrored Same After False Refused ((db.onto b').inception p) (db.inception p) :=
  (first_mirrored hb p .all .ascending).derived _

theorem extreme_mirrored (hb : b'.Mirrors db.backend Same After) (points : List Point)
    (d : Direction) :
    Mirrored Same After True Refused ((db.onto b').extreme points d) (db.extreme points d) :=
  (combined_mirrored hb points none none (some 1) d).returned _

/-- Where no scan fails in one of the backends and not in the other, a span is like any other read. -/
theorem span_mirrored (hb : b'.Mirrors db.backend Same After) (hnever : ∀ e t, ¬ After e t)
    (points : List Point) :
    Mirrored Same After False Refused ((db.onto b').span points) (db.span points) := by
  have hextreme := fun d => (extreme_mirrored hb points d).prompt hnever
  refine (hextreme .ascending).bind (fun first => ?_) fun cause a' a h t s => ?_
  · cases first with
    | error e => exact Mirrored.pure _
    | ok first =>
      refine (hextreme .descending).bind (fun last => ?_) fun cause a' a h t s => ?_
      · cases last with
        | error e => exact Mirrored.pure _
        | ok last => exact Mirrored.pure _
      · obtain rfl := h
        exact ⟨_, rfl, rfl⟩
  · obtain rfl := h
    exact ⟨_, rfl, rfl⟩

theorem standingAt_mirrored (hb : b'.Mirrors db.backend Same After) (points : List Point)
    (t : Timestamp) :
    Mirrored Same After False Refused ((db.onto b').standingAt points t) (db.standingAt points t) :=
  (perPoint_mirrored hb points _ _ _ .descending).returned _

end Database

/-- What lies between two times, if there are both. -/
def Span.between? (first last : Option Timestamp) : Option Span :=
  match first, last with
  | some first, some last => some ⟨first, last⟩
  | _, _ => none

namespace Database

/-- A span that has found one end is the rest of it. -/
theorem span_of_ok {points : List Point} {s s' : σ} {first : Option Timestamp}
    (h : db.extreme points .ascending s = (.ok first, s')) :
    db.span points s = ((db.extreme points .descending s').1.map (Span.between? first),
      (db.extreme points .descending s').2) := by
  simp only [span, bind, StateT.bind, h]
  rcases db.extreme points .descending s' with ⟨_ | last, s''⟩
  · rfl
  · cases first <;> cases last <;> rfl

theorem span_of_error {points : List Point} {s s' : σ} {e : Failure}
    (h : db.extreme points .ascending s = (.error e, s')) : db.span points s = (.error e, s') := by
  simp only [span, bind, StateT.bind, h]
  rfl

/-! ## Wide reads -/

theorem wide_mirrored (hb : b'.Mirrors db.backend Same After) (p : Point) (start stop : Timestamp) :
    Mirrored Same After False WideRead.CutShort ((db.onto b').wide p start stop)
      (db.wide p start stop) := by
  unfold wide
  split
  · exact Mirrored.pure _
  · rename_i w _
    refine Mirrored.bind (first_mirrored hb p _ _) (fun before => ?_) (fun cause a' a h t s => ?_)
    · cases before with
      | error e => exact Mirrored.pure _
      | ok before =>
        refine Mirrored.bind (drain_mirrored hb p.series w none .ascending 0) (fun body => ?_)
          (fun cause d' d h t s => ?_)
        · cases body.failure with
          | some e => exact Mirrored.pure _
          | none =>
            refine Mirrored.bind (first_mirrored hb p _ _) (fun after => ?_)
              (fun cause a' a h t s => ?_)
            · cases after with
              | error e => exact Mirrored.pure _
              | ok after => exact Mirrored.pure _
            · obtain rfl := h
              refine ⟨_, rfl, rfl, ?_⟩
              cases a <;> exact WideRead.reports_prefix (List.prefix_refl _)
        · obtain ⟨hfailure, hrows⟩ := h
          simp only [hfailure]
          refine ⟨_, rfl, rfl, ?_⟩
          cases d.failure with
          | some e => exact WideRead.reports_prefix hrows
          | none =>
            -- whatever comes after them, the rows stay
            simp only [bind, StateT.bind]
            rcases db.valueAfter p stop s with ⟨after | after, s'⟩ <;>
              exact WideRead.reports_prefix hrows
    · obtain rfl := h
      exact ⟨_, rfl, rfl, List.nil_prefix⟩

/-! ## Bookend reads -/

theorem bookendsInTurn_mirrored (hb : b'.Mirrors db.backend Same After) (w : Window)
    (start stop : Timestamp) (limit : Option Nat) (series : List SeriesId) :
    ∀ standing : Standing, Mirrored Same After False BookendRead.CutShort
      ((db.onto b').bookendsInTurn w start stop limit series standing)
      (db.bookendsInTurn w start stop limit series standing) := by
  induction series with
  | nil => exact fun _ => Mirrored.pure _
  | cons id rest ih =>
    intro standing
    refine Mirrored.bind (drain_mirrored hb id w limit .ascending 0) (fun body => ?_)
      (fun cause d' d h t s => ?_)
    · cases body.failure with
      | some e => exact Mirrored.pure _
      | none =>
        refine (ih _).map _ (fun cause r' r h => ⟨h.1, ?_⟩) fun cause r h => ⟨h.1, List.prefix_refl _⟩
        exact (List.prefix_append_right_inj _).2 h.2
    · obtain ⟨hfailure, hrows⟩ := h
      simp only [hfailure]
      refine ⟨_, rfl, rfl, ?_⟩
      have hreported := (List.prefix_append_right_inj
        ((standing.get? id).map (Standing.opening start)).toList).2
          ((Standing.follow_prefix hrows standing).map BookendEvent.row)
      cases d.failure with
      | some e => exact hreported
      | none =>
        simp only [bind, StateT.bind]
        rcases db.bookendsInTurn w start stop limit rest (standing.follow d.rows).2 s with ⟨others, s'⟩
        exact hreported.trans ((List.prefix_append ..).trans (List.prefix_append ..))

theorem bookendRead_mirrored (points : List Point) (args : Except Failure (Window × Option Nat))
    {read' : Window → Option Nat → StateM τ BookendRead}
    {read : Window → Option Nat → StateM σ BookendRead}
    (hread : ∀ w l, Mirrored Same After late BookendRead.CutShort (read' w l) (read w l)) :
    Mirrored Same After late BookendRead.CutShort (bookendRead points args read')
      (bookendRead points args read) := by
  unfold bookendRead
  split
  · exact Mirrored.pure _
  · split
    · exact Mirrored.pure _
    · exact hread _ _

theorem bookendsPerPoint_mirrored (hb : b'.Mirrors db.backend Same After) (points : List Point)
    (start stop : Timestamp) (limit : Option Int) :
    Mirrored Same After False BookendRead.CutShort
      ((db.onto b').bookendsPerPoint points start stop limit)
      (db.bookendsPerPoint points start stop limit) := by
  refine bookendRead_mirrored points _ fun w l => ?_
  refine Mirrored.bind (standingAt_mirrored hb points start) (fun standing => ?_)
    (fun cause a' a h t s => ?_)
  · cases standing with
    | error e => exact Mirrored.pure _
    | ok standing => exact bookendsInTurn_mirrored hb w start stop l _ standing
  · obtain rfl := h
    exact ⟨_, rfl, rfl, List.nil_prefix⟩

/-- What the rows of several series, merged, come to with the edges around them. -/
def edgesOf (start stop : Timestamp) (standing : Standing) (body : Delivery) : BookendRead :=
  let reported := standing.values.map (Standing.opening start) ++
    (standing.follow body.rows).1.map .row
  match body.failure with
  | some e => ⟨reported, some e⟩
  | none => ⟨reported ++ (standing.follow body.rows).2.values.map (Standing.closing stop), none⟩

theorem bookendsCombined_mirrored (hb : b'.Mirrors db.backend Same After) (points : List Point)
    (start stop : Timestamp) (limit : Option Int) :
    Mirrored Same After True BookendRead.CutShort
      ((db.onto b').bookendsCombined points start stop limit)
      (db.bookendsCombined points start stop limit) := by
  refine bookendRead_mirrored points _ fun w l => ?_
  refine Mirrored.bind (standingAt_mirrored hb points start) (fun standing => ?_)
    (fun cause a' a h t s => ?_)
  · cases standing with
    | error e => exact Mirrored.pure _
    | ok standing =>
      refine (drainMerged_mirrored hb _ w l .ascending).conclude (f := edgesOf start stop standing)
        (fun body => ?_) (fun body => ?_) (fun cause d' d h => ?_) fun cause d h => ?_
      · unfold edgesOf
        cases body.failure <;> rfl
      · unfold edgesOf
        cases body.failure <;> rfl
      · obtain ⟨hfailure, hrows⟩ := h
        have hreported := (List.prefix_append_right_inj
          (standing.values.map (Standing.opening start))).2
            ((Standing.follow_prefix hrows standing).map BookendEvent.row)
        simp only [edgesOf, hfailure]
        refine ⟨rfl, ?_⟩
        cases d.failure with
        | some e => exact hreported
        | none => exact hreported.trans (List.prefix_append ..)
      · refine ⟨?_, List.prefix_refl _⟩
        have hfailure := h.1
        cases hbody : d.failure with
        | none => simp [edgesOf, hbody] at hfailure
        | some e => simpa [edgesOf, hbody] using hfailure
  · obtain rfl := h
    exact ⟨_, rfl, rfl, List.nil_prefix⟩

end Database

/-! ## Any read -/

/-- What a read handed over, and the failure that ended it if there was one. -/
structure Reading where
  reports : List Report
  failure : Option Failure
  deriving DecidableEq

namespace Reading

/-- A read that returns what it has got, or else nothing but the failure. -/
def ofExcept (report : α → List Report) : Except Failure α → Reading
  | .ok a => ⟨report a, none⟩
  | .error e => ⟨[], some e⟩

def ofDelivery (d : Delivery) : Reading := ⟨d.rows.map .row, d.failure⟩

def ofWide (r : WideRead) : Reading := ⟨r.reports, r.failure⟩

def ofBookends (r : BookendRead) : Reading := ⟨r.events.map .event, r.failure⟩

/-- What a failure leaves of a read: its first reports. -/
def CutShort (cause : Failure) (r' r : Reading) : Prop :=
  r'.failure = some cause ∧ r'.reports <+: r.reports

theorem cutShort_ofExcept (report : α → List Report) {cause : Failure} {x' x : Except Failure α}
    (h : Refused cause x' x) : CutShort cause (ofExcept report x') (ofExcept report x) := by
  obtain rfl := h
  exact ⟨rfl, List.nil_prefix⟩

theorem refused_of_cutShort {report : α → List Report} {cause : Failure} {x : Except Failure α}
    (h : CutShort cause (ofExcept report x) (ofExcept report x)) : Refused cause x x := by
  cases x with
  | error e =>
    cases h.1
    rfl
  | ok a => cases h.1

end Reading

/-- The ends of a span, if there is one. -/
def Span.reports (span : Option Span) : List Report :=
  span.toList.flatMap fun x => [.time x.first, .time x.last]

/-- A read of a database. -/
inductive Inquiry
  | latest (p : Point) (limit : Int)
  | latestBefore (p : Point) (stop : Timestamp) (limit : Int)
  | latestValue (p : Point)
  | valueBefore (p : Point) (t : Timestamp)
  | valueAfter (p : Point) (t : Timestamp)
  | valueAt (p : Point) (t : Timestamp)
  | range (p : Point) (start : Timestamp) (stop : Option Timestamp)
  | rangeWith (p : Point) (start stop : Timestamp)
  | count (p : Point) (start stop : Option Timestamp)
  | inception (p : Point)
  | perPoint (points : List Point) (start stop : Option Timestamp) (limit : Option Int)
      (d : Direction)
  | combined (points : List Point) (start stop : Option Timestamp) (limit : Option Int)
      (d : Direction)
  | extreme (points : List Point) (d : Direction)
  | span (points : List Point)
  | standingAt (points : List Point) (t : Timestamp)
  | wide (p : Point) (start stop : Timestamp)
  | bookendsPerPoint (points : List Point) (start stop : Timestamp) (limit : Option Int)
  | bookendsCombined (points : List Point) (start stop : Timestamp) (limit : Option Int)
  /-- A stream that is asked so many times. -/
  | streamPerPoint (points : List Point) (start stop : Option Timestamp) (limit : Option Int)
      (d : Direction) (calls : Nat)
  | streamCombined (points : List Point) (start stop : Option Timestamp) (limit : Option Int)
      (d : Direction) (calls : Nat)

namespace Inquiry

/-- Reads, and puts down what was handed over. -/
def run (db : Database σ) : Inquiry → StateM σ Reading
  | latest p limit => do
    let r ← db.latest p limit
    return .ofExcept (·.map .sample) r
  | latestBefore p stop limit => do
    let r ← db.latestBefore p stop limit
    return .ofExcept (·.map .sample) r
  | latestValue p => do
    let r ← db.latestValue p
    return .ofExcept (·.toList.map .sample) r
  | valueBefore p t => do
    let r ← db.valueBefore p t
    return .ofExcept (·.toList.map .sample) r
  | valueAfter p t => do
    let r ← db.valueAfter p t
    return .ofExcept (·.toList.map .sample) r
  | valueAt p t => do
    let r ← db.valueAt p t
    return .ofExcept (·.toList.map .sample) r
  | range p start stop => do
    let r ← db.range p start stop
    return .ofExcept (·.map .sample) r
  | rangeWith p start stop => do
    let d ← db.rangeWith p start stop .none
    return .ofDelivery d
  | count p start stop => do
    let r ← db.count p start stop
    return .ofExcept (fun n => [.total n]) r
  | inception p => do
    let r ← db.inception p
    return .ofExcept (·.toList.map .time) r
  | perPoint points start stop limit d => do
    let d ← db.perPoint points start stop limit d .none
    return .ofDelivery d
  | combined points start stop limit d => do
    let d ← db.combined points start stop limit d .none
    return .ofDelivery d
  | extreme points d => do
    let r ← db.extreme points d
    return .ofExcept (·.toList.map .time) r
  | span points => do
    let r ← db.span points
    return .ofExcept Span.reports r
  | standingAt points t => do
    let r ← db.standingAt points t
    return .ofExcept (·.values.map .standing) r
  | wide p start stop => do
    let r ← db.wide p start stop
    return .ofWide r
  | bookendsPerPoint points start stop limit => do
    let r ← db.bookendsPerPoint points start stop limit
    return .ofBookends r
  | bookendsCombined points start stop limit => do
    let r ← db.bookendsCombined points start stop limit
    return .ofBookends r
  | streamPerPoint points start stop limit d calls => do
    let d ← db.pulled calls (db.streamPerPoint points start stop limit d)
    return .ofDelivery d
  | streamCombined points start stop limit d calls => do
    let d ← db.pulled calls (db.streamCombined points start stop limit d)
    return .ofDelivery d

theorem run_span (db : Database σ) (points : List Point) (s : σ) :
    (span points).run db s = (.ofExcept Span.reports (db.span points s).1, (db.span points s).2) := rfl

theorem returned_mirrored {x' : StateM τ (Except Failure α)} {x : StateM σ (Except Failure α)}
    (h : Mirrored Same After late Refused x' x) (report : α → List Report) :
    Mirrored Same After late Reading.CutShort (do let r ← x'; return .ofExcept report r)
      (do let r ← x; return .ofExcept report r) :=
  h.map _ (fun _ _ _ hcut => Reading.cutShort_ofExcept report hcut)
    fun _ _ hcut => Reading.refused_of_cutShort hcut

theorem delivered_mirrored {x' : StateM τ Delivery} {x : StateM σ Delivery}
    (h : Mirrored Same After late Delivery.CutShort x' x) :
    Mirrored Same After late Reading.CutShort (do let d ← x'; return .ofDelivery d)
      (do let d ← x; return .ofDelivery d) :=
  h.map _ (fun _ _ _ hcut => ⟨hcut.1, hcut.2.map _⟩) fun _ _ hcut => ⟨hcut.1, List.prefix_refl _⟩

theorem bookends_mirrored {x' : StateM τ BookendRead} {x : StateM σ BookendRead}
    (h : Mirrored Same After late BookendRead.CutShort x' x) :
    Mirrored Same After late Reading.CutShort (do let r ← x'; return .ofBookends r)
      (do let r ← x; return .ofBookends r) :=
  h.map _ (fun _ _ _ hcut => ⟨hcut.1, hcut.2.map _⟩) fun _ _ hcut => ⟨hcut.1, List.prefix_refl _⟩

/-- A read that is no span ends over a store that may fail like over the store that it mirrors, or with
the failure after the first part of what it hands over there. -/
theorem run_mirrored (hb : b'.Mirrors db.backend Same After) (q : Inquiry)
    (hq : ∀ points, q ≠ .span points) :
    Mirrored Same After True Reading.CutShort (q.run (db.onto b')) (q.run db) := by
  cases q with
  | latest p limit => exact (returned_mirrored (db.collect_mirrored hb p _ _) _).weaken
  | latestBefore p stop limit => exact (returned_mirrored (db.collect_mirrored hb p _ _) _).weaken
  | latestValue p => exact (returned_mirrored (db.first_mirrored hb p _ _) _).weaken
  | valueBefore p t => exact (returned_mirrored (db.first_mirrored hb p _ _) _).weaken
  | valueAfter p t => exact (returned_mirrored (db.first_mirrored hb p _ _) _).weaken
  | valueAt p t => exact (returned_mirrored (db.first_mirrored hb p _ _) _).weaken
  | range p start stop => exact (returned_mirrored (db.collect_mirrored hb p _ _) _).weaken
  | rangeWith p start stop => exact (delivered_mirrored (db.rangeWith_mirrored hb p _ _)).weaken
  | count p start stop => exact (returned_mirrored (db.count_mirrored hb p _ _) _).weaken
  | inception p => exact (returned_mirrored (db.inception_mirrored hb p) _).weaken
  | perPoint points start stop limit d =>
    exact (delivered_mirrored (db.perPoint_mirrored hb points _ _ _ _)).weaken
  | combined points start stop limit d =>
    exact delivered_mirrored (db.combined_mirrored hb points _ _ _ _)
  | extreme points d => exact returned_mirrored (db.extreme_mirrored hb points d) _
  | span points => exact absurd rfl (hq points)
  | standingAt points t => exact (returned_mirrored (db.standingAt_mirrored hb points t) _).weaken
  | wide p start stop =>
    exact ((db.wide_mirrored hb p start stop).map Reading.ofWide (fun _ _ _ h => h)
      fun _ _ h => h).weaken
  | bookendsPerPoint points start stop limit =>
    exact (bookends_mirrored (db.bookendsPerPoint_mirrored hb points start stop limit)).weaken
  | bookendsCombined points start stop limit =>
    exact bookends_mirrored (db.bookendsCombined_mirrored hb points start stop limit)
  | streamPerPoint points start stop limit d calls =>
    exact delivered_mirrored
      (db.pulled_mirrored hb calls (db.openStream_mirrored hb points _ _ _ _ _ _))
  | streamCombined points start stop limit d calls =>
    exact delivered_mirrored
      (db.pulled_mirrored hb calls (db.openStream_mirrored hb points _ _ _ _ _ _))

/-- Between two stores of which neither fails without the other, every read ends alike, a span too. -/
theorem run_mirrored_of_never (hb : b'.Mirrors db.backend Same After) (hnever : ∀ e t, ¬ After e t)
    (q : Inquiry) :
    Mirrored Same After False Reading.CutShort (q.run (db.onto b')) (q.run db) := by
  by_cases hq : ∃ points, q = .span points
  · obtain ⟨points, rfl⟩ := hq
    exact returned_mirrored (db.span_mirrored hb hnever points) _
  · exact (q.run_mirrored hb (not_exists.1 hq)).prompt hnever

end Inquiry

end Historian
