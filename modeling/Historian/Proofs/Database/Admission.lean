import Historian.Proofs.Database.Gates
import Historian.Site

/-!
# Which calls are admitted

A call whose arguments are not in order, or that needs what the backend has not declared, is refused
before anything else is done.

* `Call` — the reads, streams, batches and deletions of a database, with their arguments and with what
  they need.
* `Call.run_gated`, `Call.run_of_lacking` — every call looks at its arguments, and then at what it
  needs.
* `Call.decided_of_new` — how every call of a database is decided.
-/

set_option autoImplicit false

namespace Historian

variable {σ α : Type}

/-! ## Calls -/

/-- The arguments of a read that may be wrong. -/
def Inquiry.arguments : Inquiry → Arguments
  | latest _ limit => { limit := some limit }
  | latestBefore _ stop limit => { stop := some stop, limit := some limit }
  | range _ start stop => { start := some start, stop }
  | rangeWith _ start stop => { start := some start, stop := some stop }
  | count _ start stop => { start, stop }
  | perPoint _ start stop limit _ => { start, stop, limit }
  | combined _ start stop limit _ => { start, stop, limit }
  | wide _ start stop => { start := some start, stop := some stop }
  | bookendsPerPoint _ start stop limit => { start := some start, stop := some stop, limit }
  | bookendsCombined _ start stop limit => { start := some start, stop := some stop, limit }
  | streamPerPoint _ start stop limit _ _ => { start, stop, limit }
  | streamCombined _ start stop limit _ _ => { start, stop, limit }
  | latestValue _ | valueBefore _ _ | valueAfter _ _ | valueAt _ _ | inception _ | extreme _ _
  | span _ | standingAt _ _ => {}

/-- A call of a database. -/
inductive Call (σ : Type)
  | read (q : Inquiry)
  /-- A read whose rows are handed over one by one, to a receiver that may act on the store. -/
  | rangeWith (p : Point) (start stop : Timestamp) (react : Reaction σ)
  | perPoint (points : List Point) (start stop : Option Timestamp) (limit : Option Int)
      (d : Direction) (react : Reaction σ)
  | combined (points : List Point) (start stop : Option Timestamp) (limit : Option Int)
      (d : Direction) (react : Reaction σ)
  | saveBatch (rows : List (SeriesId × Sample)) (chunk : Nat)
  | deleteBetween (p : Point) (start stop : Option Timestamp)
  | deleteBefore (p : Point) (stop : Timestamp)
  | deleteAt (p : Point) (t : Timestamp)
  | deleteAllOf (p : Point)
  | deleteAll
  | deleteAllBefore (stop : Timestamp)
  | deleteOrphaned (live : List SeriesId)
  | setRetention (p : Period)
  | topSeries (limit : Nat)

namespace Call

/-- The arguments that may be wrong. -/
def arguments : Call σ → Arguments
  | read q => q.arguments
  | rangeWith _ start stop _ => { start := some start, stop := some stop }
  | perPoint _ start stop limit _ _ => { start, stop, limit }
  | combined _ start stop limit _ _ => { start, stop, limit }
  | saveBatch _ chunk => { batch := some chunk }
  | deleteBetween _ start stop => { start, stop }
  | deleteBefore _ stop => { stop := some stop }
  | deleteAt _ _ | deleteAllOf _ | deleteAll | deleteAllBefore _ | deleteOrphaned _
  | setRetention _ | topSeries _ => {}

/-- What the backend has to have declared. -/
def needs? : Call σ → Option Capability
  | deleteBetween _ _ _ | deleteBefore _ _ | deleteAt _ _ | deleteAllOf _ => some .delete
  | deleteAll => some .deleteAll
  | deleteAllBefore _ => some .deleteAllBefore
  | deleteOrphaned _ => some .deleteOrphaned
  | setRetention _ => some .retentionPolicy
  | topSeries _ => some .topSeries
  | read _ | rangeWith _ _ _ _ | perPoint _ _ _ _ _ _ | combined _ _ _ _ _ _
  | saveBatch _ _ => none

/-- What is reported of a count that may be unknown. -/
def counted (n : Option Nat) : List Report := (n.map .total).toList

/-- Makes the call, and puts down what was handed over. -/
def run (db : Database σ) : Call σ → StateM σ Reading
  | read q => q.run db
  | rangeWith p start stop react => do
    let d ← db.rangeWith p start stop react
    return .ofDelivery d
  | perPoint points start stop limit d react => do
    let d ← db.perPoint points start stop limit d react
    return .ofDelivery d
  | combined points start stop limit d react => do
    let d ← db.combined points start stop limit d react
    return .ofDelivery d
  | saveBatch rows chunk => do
    let r ← db.saveBatch rows chunk
    return .ofExcept (fun n => [.total n]) r
  | deleteBetween p start stop => do
    let r ← db.deleteBetween p start stop
    return .ofExcept counted r
  | deleteBefore p stop => do
    let r ← db.deleteBefore p stop
    return .ofExcept counted r
  | deleteAt p t => do
    let r ← db.deleteAt p t
    return .ofExcept counted r
  | deleteAllOf p => do
    let r ← db.deleteAllOf p
    return .ofExcept counted r
  | deleteAll => do
    let r ← db.deleteAll
    return .ofExcept counted r
  | deleteAllBefore stop => do
    let r ← db.deleteAllBefore stop
    return .ofExcept counted r
  | deleteOrphaned live => do
    let r ← db.deleteOrphaned live
    return .ofExcept counted r
  | setRetention p => do
    let r ← db.setRetention p
    return .ofExcept (fun _ => []) r
  | topSeries limit => do
    let r ← db.topSeries limit
    return .ofExcept (·.map fun c => .total c.count) r

theorem returned_gated {a : Arguments} {x : StateM σ (Except Failure α)} (h : Gated a x)
    (report : α → List Report) : Gated a (do let r ← x; return Reading.ofExcept report r) :=
  h.map (fun r => by cases r <;> rfl) fun _ => rfl

theorem delivered_gated {a : Arguments} {x : StateM σ Delivery} (h : Gated a x) :
    Gated a (do let d ← x; return Reading.ofDelivery d) :=
  h.map (fun _ => rfl) fun _ => rfl

/-- Every read looks at its arguments before it does anything else. -/
theorem inquiry_gated (db : Database σ) (q : Inquiry) : Gated q.arguments (q.run db) := by
  cases q with
  | latest p limit =>
    exact returned_gated (db.collect_gated p ((Arguments.Checks.limit (some limit)).map _) _) _
  | latestBefore p stop limit =>
    exact returned_gated (db.collect_gated p (.limitBefore stop (some limit)) _) _
  | latestValue p => exact returned_gated (db.first_admitted p _ _).gated _
  | valueBefore p t => exact returned_gated (db.first_admitted p _ _).gated _
  | valueAfter p t => exact returned_gated (db.first_admitted p _ _).gated _
  | valueAt p t => exact returned_gated (db.first_admitted p _ _).gated _
  | range p start stop =>
    exact returned_gated
      (db.collect_gated p ((Arguments.Checks.window (some start) stop).map _) _) _
  | rangeWith p start stop => exact delivered_gated (db.rangeWith_gated p start stop .none)
  | count p start stop =>
    exact returned_gated (Database.except_gated
      (db.collect_gated p ((Arguments.Checks.window start stop).map _) _) _) _
  | inception p =>
    exact returned_gated (Database.except_gated (db.first_admitted p _ _).gated _) _
  | perPoint points start stop limit d =>
    exact delivered_gated (db.perPoint_gated points start stop limit d .none)
  | combined points start stop limit d =>
    exact delivered_gated (db.combined_gated points start stop limit d .none)
  | extreme points d => exact returned_gated (db.extreme_admitted points d).gated _
  | span points => exact returned_gated (db.span_admitted points).gated _
  | standingAt points t => exact returned_gated (db.standingAt_admitted points t).gated _
  | wide p start stop => exact (db.wide_gated p start stop).map (fun _ => rfl) fun _ => rfl
  | bookendsPerPoint points start stop limit =>
    exact (db.bookendsPerPoint_gated points start stop limit).map (fun _ => rfl) fun _ => rfl
  | bookendsCombined points start stop limit =>
    exact (db.bookendsCombined_gated points start stop limit).map (fun _ => rfl) fun _ => rfl
  | streamPerPoint points start stop limit d calls =>
    exact delivered_gated
      (db.pulled_gated calls points start stop limit d .inTurn (fun _ => trivial) _)
  | streamCombined points start stop limit d calls =>
    exact delivered_gated
      (db.pulled_gated calls points start stop limit d (fun cursors => .merged d (.new cursors))
        (fun _ => AtMostBackend.none) _)

/-- So does every call. -/
theorem run_gated (db : Database σ) (call : Call σ) : Gated call.arguments (call.run db) := by
  cases call with
  | read q => exact inquiry_gated db q
  | rangeWith p start stop react => exact delivered_gated (db.rangeWith_gated p start stop react)
  | perPoint points start stop limit d react =>
    exact delivered_gated (db.perPoint_gated points start stop limit d react)
  | combined points start stop limit d react =>
    exact delivered_gated (db.combined_gated points start stop limit d react)
  | saveBatch rows chunk => exact returned_gated (db.saveBatch_gated rows chunk) _
  | deleteBetween p start stop => exact returned_gated (db.deleteBetween_gated p start stop) _
  | deleteBefore p stop => exact returned_gated (db.deleteBetween_gated p none (some stop)) _
  | deleteAt p t =>
    have hadmitted : Admitted (db.deleteAt p t) :=
      (db.deleteBetween_gated p (some t) (Timestamp.next? t)).accepted
        (Database.complaint?_single t)
    exact returned_gated hadmitted.gated _
  | deleteAllOf p => exact returned_gated (db.deleteBetween_gated p none none) _
  | deleteAll => exact returned_gated (db.callWith_admitted .deleteAll _).gated _
  | deleteAllBefore stop => exact returned_gated (db.callWith_admitted .deleteAllBefore _).gated _
  | deleteOrphaned live => exact returned_gated (db.callWith_admitted .deleteOrphaned _).gated _
  | setRetention p => exact returned_gated (db.callWith_admitted .retentionPolicy _).gated _
  | topSeries limit => exact returned_gated (db.callWith_admitted .topSeries _).gated _

theorem returned_of_error {x : StateM σ (Except Failure α)} {s s' : σ} {e : Failure}
    (h : x s = (.error e, s')) (report : α → List Report) :
    (do let r ← x; return Reading.ofExcept report r : StateM σ Reading) s =
      (⟨[], some e⟩, s') := bind_run h

/-- A call that needs what has not been declared is refused, if there is nothing to complain of. -/
theorem run_of_lacking (db : Database σ) {call : Call σ} (hargs : call.arguments.complaint? = none)
    {c : Capability} (hneeds : call.needs? = some c) (hlacks : db.capabilities.supports c = false)
    (s : σ) : call.run db s = (⟨[], some (.unsupported c)⟩, s) := by
  cases call <;> cases hneeds
  case deleteBetween p start stop =>
    exact returned_of_error (Database.deleteBetween_of_lacking hlacks p start stop hargs s) _
  case deleteBefore p stop =>
    exact returned_of_error (Database.deleteBetween_of_lacking hlacks p none (some stop) hargs s) _
  case deleteAt p t =>
    exact returned_of_error (Database.deleteBetween_of_lacking hlacks p (some t)
      (Timestamp.next? t) (Database.complaint?_single t) s) _
  case deleteAllOf p =>
    exact returned_of_error (Database.deleteBetween_of_lacking hlacks p none none rfl s) _
  all_goals exact returned_of_error (Database.callWith_of_lacking hlacks _ s) _

/-! ## Decisions -/

/-- The arguments are not in order, or something is needed that has not been declared. -/
def Barred (capabilities : Capabilities) (call : Call σ) : Prop :=
  call.arguments.IllFormed ∨ ∃ c, call.needs? = some c ∧ capabilities.supports c = false

/-- A call that is barred is refused whatever the backend, and leaves everything as it is. -/
theorem exists_refusal {db : Database σ} {call : Call σ} (h : call.Barred db.capabilities) :
    ∃ e, ∀ (b' : Backend σ) (s' : σ), call.run (db.onto b') s' = (⟨[], some e⟩, s') := by
  cases hargs : call.arguments.complaint? with
  | some c =>
    exact ⟨.invalidArgument c, fun b' s' => (run_gated (db.onto b') call).refused c hargs s'⟩
  | none =>
    have hwell : ¬ call.arguments.IllFormed := by
      rw [← Arguments.exists_complaint?, hargs]
      simp
    obtain ⟨c, hneeds, hlacks⟩ := h.resolve_left hwell
    exact ⟨.unsupported c, fun b' s' => run_of_lacking (db.onto b') hargs hneeds hlacks s'⟩

/-- How a call is decided, given what has been declared. -/
structure Decided (capabilities : Capabilities) (db : Database σ) (call : Call σ) (s : σ) :
    Prop where
  /-- Arguments that are not in order are refused, and no others. -/
  invalid : (∃ cause, (call.run db s).1.failure = some (.invalidArgument cause)) ↔
    call.arguments.IllFormed
  /-- What has not been declared is refused. -/
  unsupported : ¬ call.arguments.IllFormed → ∀ c, call.needs? = some c →
    capabilities.supports c = false → (call.run db s).1.failure = some (.unsupported c)
  /-- A call that is refused hands nothing over, and the backend has no part in it: any other would
  have been left as it was too, and the answer would have been the same. -/
  untouched : call.Barred capabilities → (call.run db s).1.reports = [] ∧
    ∀ (b' : Backend σ) (s' : σ), call.run (db.onto b') s' = ((call.run db s).1, s')
  /-- Nothing is touched that is used beside the database or runs beside it, such as its writers. -/
  beside : call.Barred capabilities →
    ∀ site : Site σ, (Site.onStore (call.run db) site).2 = site

theorem decided (db : Database σ) (call : Call σ) (s : σ) :
    Decided db.capabilities db call s := by
  refine ⟨⟨fun ⟨cause, hfailure⟩ => ?_, fun hill => ?_⟩, fun hwell c hneeds hlacks => ?_,
    fun hbarred => ?_, fun hbarred site => ?_⟩
  · cases hargs : call.arguments.complaint? with
    | some c => exact Arguments.exists_complaint?.1 ⟨c, hargs⟩
    | none =>
      exact absurd hfailure (((run_gated db call).accepted hargs s).ne_invalidArgument cause)
  · obtain ⟨c, hargs⟩ := Arguments.exists_complaint?.2 hill
    exact ⟨c, by rw [(run_gated db call).refused c hargs s]; rfl⟩
  · have hargs : call.arguments.complaint? = none := by
      rw [← Arguments.exists_complaint?] at hwell
      simpa [Option.eq_none_iff_forall_ne_some] using hwell
    rw [run_of_lacking db hargs hneeds hlacks]
  · obtain ⟨e, hrefused⟩ := exists_refusal hbarred
    have hrun : call.run db s = (⟨[], some e⟩, s) := hrefused db.backend s
    rw [hrun]
    exact ⟨rfl, hrefused⟩
  · obtain ⟨e, hrefused⟩ := exists_refusal hbarred
    have hrun : call.run db site.store = (⟨[], some e⟩, site.store) :=
      hrefused db.backend site.store
    rw [Site.onStore, hrun]

/-- A database decides its calls by what was declared when it was opened, and by their arguments. -/
theorem decided_of_new (b : Backend σ) (settings : ReadSettings) (opened : σ) {db : Database σ}
    (hnew : Database.new b settings opened = .ok db) (call : Call σ) (s : σ) :
    Decided (b.capabilities opened) db call s ∧ db.InOrder := by
  have hcapabilities : db.capabilities = b.capabilities opened := by
    unfold Database.new at hnew
    simp only at hnew
    split at hnew
    · split at hnew
      · obtain rfl := Except.ok.inj hnew
        rfl
      · cases hnew
    · cases hnew
  exact ⟨hcapabilities ▸ decided db call s, db.inOrder⟩

/-- A store that declared nothing when it was opened: it refuses to delete at the end of time, and
to look into a window that stops before it starts. -/
theorem decided_of_new_declaring_nothing :
    let m : Memory := { Memory.new with capabilities := .none }
    let deletion : Call Memory := .deleteAt ⟨7, 1⟩ Int64.maxValue
    let inverted : Call Memory := .read (.bookendsCombined [⟨7, 1⟩] 5 3 (some (-1)))
    ∃ db, Database.new Memory.backend .default m = .ok db ∧
      (deletion.run db Memory.new).1.failure = some (.unsupported .delete) ∧
      (inverted.run db Memory.new).1.failure = some (.invalidArgument (.windowInverted 5 3)) ∧
      (Decided .none db deletion Memory.new ∧ db.InOrder) ∧
      Decided .none db inverted Memory.new ∧ db.InOrder := by
  intro m deletion inverted
  exact ⟨_, rfl, by decide +kernel, by decide +kernel,
    decided_of_new Memory.backend .default m rfl deletion _,
    decided_of_new Memory.backend .default m rfl inverted _⟩

end Call

end Historian
