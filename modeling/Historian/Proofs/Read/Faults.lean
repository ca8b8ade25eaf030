import Historian.Proofs.Read.Refusals

/-!
# Reads of a store in memory whose scans fail

Any of the scans of a store may fail, after it has brought some rows or none: which of them, and how,
is given by the number of the scan.  A failing scan is never taken for the end of the values.

* `Backend.withFaults` — a backend some of whose scans fail.
* `Database.OverMemory.mirrors` — until one does, it answers like one of which none fails.
* `Reading.Truthful` — a read that ends well is complete; one that fails has handed over the first
  part of what there was, and its failure is that of the one scan that has failed.
* `Inquiry.passedOver` — a span may have passed over the failure of another scan before that one.
* `Database.reads_truthful` — every read of a store in memory is truthful, and what a failing scan has
  brought makes no difference.
-/

set_option autoImplicit false

namespace Historian

variable {σ α : Type}

/-! ## Scans that fail by number -/

/-- Which scans fail, with what they bring before, by the number of scans before them. -/
abbrev Faults := Nat → Option (List Row × BackendFailure)

/-- A store, and what has become of its scans. -/
structure Faulty (σ : Type) where
  store : σ
  /-- Scans asked for so far. -/
  scans : Nat
  /-- The failures of those that have failed, in order. -/
  failures : List BackendFailure

namespace Faulty

def start (s : σ) : Faulty σ := ⟨s, 0, []⟩

/-- An operation of the store. -/
def lift (action : Action σ α) : Action (Faulty σ) α := fun t =>
  let (r, store) := action t.store
  (r, { t with store })

end Faulty

/-- A backend that passes on what `b` does, except for the scans that fail as told. -/
def Backend.withFaults (b : Backend σ) (faults : Faults) : Backend (Faulty σ) where
  name t := b.name t.store
  capabilities t := b.capabilities t.store
  scan request t :=
    match faults t.scans with
    | some (pushed, e) =>
      (⟨pushed, some e⟩, { t with scans := t.scans + 1, failures := t.failures ++ [e] })
    | none =>
      let (result, store) := b.scan request t.store
      (result, ⟨store, t.scans + 1, t.failures ++ result.failure.toList⟩)
  insert series v := Faulty.lift (b.insert series v)
  insertBatch batch := Faulty.lift (b.insertBatch batch)
  deleteWithin series w := Faulty.lift (b.deleteWithin series w)
  deleteAllBefore t := Faulty.lift (b.deleteAllBefore t)
  deleteAll := Faulty.lift b.deleteAll
  deleteOrphaned live := Faulty.lift (b.deleteOrphaned live)
  setRetention p := Faulty.lift (b.setRetention p)
  enforceRetention now := Faulty.lift (b.enforceRetention now)
  topSeries limit := Faulty.lift (b.topSeries limit)
  purgesPoints t := b.purgesPoints t.store
  chunkSize t := b.chunkSize t.store
  openLease := Faulty.lift b.openLease
  releaseLease l t := { t with store := b.releaseLease l t.store }
  holdsBatches t := b.holdsBatches t.store

/-- Two backends with the same failures are alike to one who does not look at what the failing scans
have brought. -/
theorem Backend.withFaults_mirrors (b : Backend σ) {faults' faults : Faults}
    (h : ∀ n, (faults' n).map Prod.snd = (faults n).map Prod.snd) :
    (b.withFaults faults').Mirrors (b.withFaults faults) Eq fun _ _ => False where
  scan request t s hs := by
    subst hs
    refine .inl ?_
    have hfault := h t.scans
    simp only [withFaults]
    generalize faults' t.scans = fault', faults t.scans = fault at hfault
    cases fault' with
    | none =>
      cases fault with
      | none => exact ⟨⟨rfl, fun _ => rfl⟩, rfl⟩
      | some fault => cases hfault
    | some fault' =>
      cases fault with
      | none => cases hfault
      | some fault =>
        obtain ⟨pushed', e'⟩ := fault'
        obtain ⟨pushed, e⟩ := fault
        obtain rfl : e' = e := Option.some.inj hfault
        exact ⟨⟨rfl, fun hnone => by cases hnone⟩, rfl⟩
  openLease {t s} hs := by
    subst hs
    exact ⟨rfl, rfl⟩
  releaseLease l t s hs := by
    subst hs
    rfl
  releaseLease_after _ _ _ h := h

/-! ## The store in memory -/

/-- No scan has failed but the `earlier` ones, the archive is `a` still, and the store is the one beside
it, of which no scan is going to fail. -/
def Faulty.Unharmed (earlier : List BackendFailure) (a : Archive) (t : Faulty Memory) (m : Memory) :
    Prop := m = { t.store with failingScans := 0 } ∧ m.archive = a ∧ t.failures = earlier

/-- One scan has failed besides, the last. -/
def Faulty.Failed (earlier : List BackendFailure) (a : Archive) (e : BackendFailure)
    (t : Faulty Memory) : Prop := t.store.archive = a ∧ t.failures = earlier ++ [e]

/-- A store may be read again after a failure. -/
theorem Faulty.Failed.unharmed {earlier : List BackendFailure} {a : Archive} {e : BackendFailure}
    {t : Faulty Memory} (h : Failed earlier a e t) :
    Unharmed (earlier ++ [e]) a t { t.store with failingScans := 0 } := ⟨rfl, h.1, h.2⟩

namespace Database

variable {db : Database Memory} {earlier : List BackendFailure} {a : Archive}

theorem OverMemory.scan_eq (h : db.OverMemory) (request : Scan) :
    ∃ request', ∀ m, db.backend.scan request m = Memory.scan request' m := by
  rcases h with h | ⟨_, _, h⟩ <;> rw [h]
  · exact ⟨request, fun _ => rfl⟩
  · exact ⟨_, fun _ => rfl⟩

/-- Whether a scan fails by its number or because the store in memory has been told so, until then the
store answers like one of which no scan fails. -/
theorem OverMemory.mirrors (h : db.OverMemory) (faults : Faults) (earlier : List BackendFailure)
    (a : Archive) :
    (db.backend.withFaults faults).Mirrors db.backend (Faulty.Unharmed earlier a)
      (Faulty.Failed earlier a) where
  scan request t m hm := by
    obtain ⟨rfl, harchive, hfailures⟩ := hm
    obtain ⟨request', hscan⟩ := h.scan_eq request
    simp only [Backend.withFaults, hscan]
    cases faults t.scans with
    | some fault => exact .inr ⟨fault.2, rfl, harchive, by rw [hfailures]⟩
    | none =>
      by_cases hscans : t.store.failingScans = 0
      · refine .inl ?_
        simp only [Memory.scan, hscans, if_true]
        exact ⟨⟨rfl, fun _ => rfl⟩, rfl, harchive, by simp [hfailures]⟩
      · refine .inr ⟨.unavailable "injected scan failure", ?_⟩
        simp only [Memory.scan, hscans, if_false, true_and]
        exact ⟨harchive, by simp [hfailures]⟩
  openLease hm := by
    obtain ⟨rfl, hsame⟩ := hm
    rcases h with h | ⟨_, _, h⟩ <;> rw [h] <;> exact ⟨rfl, rfl, hsame⟩
  releaseLease lease t m hm := by
    obtain ⟨rfl, hsame⟩ := hm
    rcases h with h | ⟨_, _, h⟩ <;> rw [h] <;> exact ⟨rfl, hsame⟩
  releaseLease_after _ _ _ hfailed := by
    rcases h with h | ⟨_, _, h⟩ <;> rw [h] <;> exact hfailed

end Database

/-! ## What reads tell -/

/-- The failures that a read has passed over by the time it asks for the last time.  A span asks for its
two ends one after the other, and a failure may have come too late to matter to the first. -/
def Inquiry.passedOver (db : Database (Faulty σ)) (q : Inquiry) (t : Faulty σ) : List BackendFailure :=
  match q with
  | span points =>
    match db.extreme points .ascending t with
    | (.ok _, t) => t.failures
    | (.error _, _) => []
  | _ => []

theorem Inquiry.passedOver_eq_nil {q : Inquiry} (hq : ∀ points, q ≠ .span points)
    (db : Database (Faulty σ)) (t : Faulty σ) : q.passedOver db t = [] := by
  cases q with
  | span points => exact absurd rfl (hq points)
  | _ => rfl

theorem passedOver_of_ok {db : Database (Faulty σ)} {points : List Point} {first : Option Timestamp}
    {t t' : Faulty σ} (h : db.extreme points .ascending t = (.ok first, t')) :
    (Inquiry.span points).passedOver db t = t'.failures := by
  simp only [Inquiry.passedOver, h]

theorem passedOver_of_error {db : Database (Faulty σ)} {points : List Point} {e : Failure}
    {t t' : Faulty σ} (h : db.extreme points .ascending t = (.error e, t')) :
    (Inquiry.span points).passedOver db t = [] := by
  simp only [Inquiry.passedOver, h]

/-- What a read has handed over from a store whose scans have failed as listed, beside the whole read
of the store as it is when none fails. -/
structure Reading.Truthful (whole got : Reading) (passedOver failures : List BackendFailure) :
    Prop where
  complete : got.failure = none → got = whole
  reports_prefix : got.reports <+: whole.reports
  passedOver_le : passedOver.length ≤ 1
  /-- A failure is that of the scan that has failed first, but for those passed over, and of the last
  one that was made; or the arguments were refused. -/
  told : ∀ e, got.failure = some e →
    (∃ cause, failures = passedOver ++ [cause] ∧ e = .ofBackend cause) ∨
      failures = [] ∧ got = whole ∧ e.isInvalidArgument = true

theorem Reading.truthful_of_told {earlier : List BackendFailure} {a : Archive}
    {got : Reading × Faulty Memory} {whole : Reading × Memory}
    (h : Told (Faulty.Unharmed earlier a) (Faulty.Failed earlier a) True CutShort got whole)
    (hearlier : earlier.length ≤ 1)
    (hwhole : ∀ e, whole.1.failure = some e → earlier = [] ∧ e.isInvalidArgument = true) :
    Truthful whole.1 got.1 earlier got.2.failures := by
  cases h with
  | same hanswer h =>
    refine ⟨fun _ => hanswer, hanswer ▸ List.prefix_refl _, hearlier, fun e he => .inr ?_⟩
    obtain ⟨rfl, hinvalid⟩ := hwhole e (hanswer ▸ he)
    exact ⟨h.2.2, hanswer, hinvalid⟩
  | tooLate _ hanswer hwhole h =>
    -- the answer is not a failure itself
    refine ⟨fun _ => hanswer, hanswer ▸ List.prefix_refl _, hearlier, fun e he => ?_⟩
    exact absurd ⟨hanswer ▸ he, List.prefix_refl _⟩ (hwhole e)
  | @failed e h hcut =>
    obtain ⟨hfailure, hprefix⟩ := hcut
    refine ⟨fun hnone => ?_, hprefix, hearlier, fun e' he' => .inl ⟨e, h.2, ?_⟩⟩
    · rw [hfailure] at hnone
      cases hnone
    · rw [hfailure] at he'
      exact (Option.some.inj he').symm

namespace Database

variable {db : Database Memory} {points : List Point}

/-- The second half of a span, from which the failures of the first half are passed over. -/
theorem lastHalf_truthful (hdb : db.OverMemory) (faults : Faults) {earlier : List BackendFailure}
    {a : Archive} {t : Faulty Memory} {m : Memory} {first last : Option Timestamp}
    (hlast : Archive.Picks Direction.descending.IsFirst (a.timesOfAll points) last)
    (hm : Faulty.Unharmed earlier a t m) (hscans : m.failingScans = 0) (hle : earlier.length ≤ 1) :
    let ended := (db.onto (db.backend.withFaults faults)).extreme points .descending t
    Reading.Truthful (.ofExcept Span.reports (.ok (Span.between? first last)))
      (.ofExcept Span.reports (ended.1.map (Span.between? first))) earlier ended.2.failures := by
  intro ended
  have htold := Inquiry.returned_mirrored ((extreme_mirrored (hdb.mirrors faults earlier a)
    points .descending).derived (Span.between? first)) Span.reports hm
  obtain ⟨last', s', hextreme, -, hpicks⟩ :=
    extreme_spec (hdb.readsFrom a) ⟨hscans, hm.2.1⟩ points .descending
  obtain rfl := hpicks.unique hlast
  have hwhole : (db.extreme points .descending m).1.map (Span.between? first) =
      .ok (Span.between? first last') := by
    rw [hextreme]
    rfl
  rw [← hwhole]
  refine Reading.truthful_of_told htold hle fun e he => ?_
  have hnone : (Reading.ofExcept Span.reports
    ((db.extreme points .descending m).1.map (Span.between? first))).failure = none := by
    rw [hwhole]
    rfl
  cases hnone.symm.trans he

/-- A span is truthful: its second half begins with the failures that the first one has passed
over. -/
theorem span_truthful (hdb : db.OverMemory) (m : Memory) (faults : Faults) (points : List Point) :
    let faulty := db.onto (db.backend.withFaults faults)
    let q : Inquiry := .span points
    Reading.Truthful (q.run db { m with failingScans := 0 }).1 (q.run faulty (.start m)).1
      (q.passedOver faulty (.start m)) (q.run faulty (.start m)).2.failures := by
  intro faulty q
  have hb := hdb.readsFrom m.archive
  have hs : Memory.Intact m.archive { m with failingScans := 0 } := ⟨rfl, rfl⟩
  obtain ⟨first, s₁, hfirst, hs₁, -⟩ := extreme_spec hb hs points .ascending
  obtain ⟨last, s₂, hlast, -, hpicks⟩ := extreme_spec hb hs₁ points .descending
  have hwhole : (q.run db { m with failingScans := 0 }).1 =
      .ofExcept Span.reports (.ok (Span.between? first last)) := by
    rw [Inquiry.run_span, span_of_ok hfirst, hlast]
    rfl
  have htold := extreme_mirrored (hdb.mirrors faults [] m.archive) points .ascending
    (t := .start m) (s := { m with failingScans := 0 }) ⟨rfl, rfl, rfl⟩
  rw [hfirst] at htold
  rcases hcall : faulty.extreme points .ascending (.start m) with ⟨answer, t⟩
  rw [show (db.onto (db.backend.withFaults faults)).extreme points .ascending (.start m) = (answer, t)
    from hcall] at htold
  rw [hwhole, Inquiry.run_span faulty]
  cases htold with
  | same hanswer h =>
    obtain rfl : answer = .ok first := hanswer
    rw [span_of_ok hcall, passedOver_of_ok hcall]
    exact lastHalf_truthful hdb faults hpicks (h.2.2.symm ▸ h) hs₁.1 (h.2.2.symm ▸ Nat.zero_le 1)
  | tooLate _ hanswer _ h =>
    obtain rfl : answer = .ok first := hanswer
    rw [span_of_ok hcall, passedOver_of_ok hcall]
    exact lastHalf_truthful hdb faults hpicks (h.2.symm ▸ h.unharmed) rfl (h.2.symm ▸ Nat.le_refl 1)
  | @failed e h hcut =>
    obtain rfl : answer = .error (.ofBackend e) := hcut
    rw [span_of_error hcall, passedOver_of_error hcall]
    refine ⟨fun hnone => ?_, List.nil_prefix, Nat.zero_le 1, fun e' he' => .inl ⟨e, h.2, ?_⟩⟩
    · cases hnone
    · exact (Option.some.inj he').symm

/-- Reads of a store in memory whose scans fail, whatever it holds and whichever scans they are, are
truthful.  What the failing scans have brought makes no difference, and the user of a stream is given
the rows, then the failure once if there is one, and then only the end. -/
theorem reads_truthful (hdb : db.OverMemory) (m : Memory) (faults : Faults) :
    let faulty := db.onto (db.backend.withFaults faults)
    (∀ q : Inquiry, Reading.Truthful (q.run db { m with failingScans := 0 }).1
      (q.run faulty (.start m)).1 (q.passedOver faulty (.start m))
      (q.run faulty (.start m)).2.failures) ∧
    (∀ (q : Inquiry) (faults' : Faults),
      (∀ n, (faults' n).map Prod.snd = (faults n).map Prod.snd) →
      (q.run (db.onto (db.backend.withFaults faults')) (.start m)).1 =
        (q.run faulty (.start m)).1) ∧
    ∀ (opened : StateM (Faulty Memory) (Except Failure Stream)) (s s' : Faulty Memory) (t : Stream)
      (calls : Nat), opened s = (.ok t, s') →
      (pullTimes (Stream.next faulty.backend) calls t s').1.1 =
        (faulty.pulled calls opened s).1.answers calls := by
  intro faulty
  refine ⟨fun q => ?_, fun q faults' hsame => ?_, fun opened s s' t calls h => ?_⟩
  · by_cases hq : ∃ points, q = .span points
    · obtain ⟨points, rfl⟩ := hq
      exact span_truthful hdb m faults points
    · have hq : ∀ points, q ≠ .span points := not_exists.1 hq
      have htold := q.run_mirrored (hdb.mirrors faults [] m.archive) hq (t := .start m)
        (s := { m with failingScans := 0 }) ⟨rfl, rfl, rfl⟩
      rw [q.passedOver_eq_nil hq]
      exact Reading.truthful_of_told htold (Nat.zero_le 1) fun e he =>
        ⟨rfl, q.run_atMostRefused hdb rfl e he⟩
  · have hmirrors : (db.backend.withFaults faults').Mirrors faulty.backend Eq fun _ _ => False :=
      db.backend.withFaults_mirrors hsame
    have htold := q.run_mirrored_of_never hmirrors (fun _ _ => id) (rfl : Faulty.start m = .start m)
    cases htold with
    | same hanswer _ => exact hanswer
    | tooLate hnever => exact hnever.elim
    | failed hnever _ => exact hnever.elim
  · exact faulty.pulled_answers h calls

/-- Two series that share no time. -/
def interleavedStore : Memory :=
  { Memory.new with
    archive := Archive.empty.putAll
      [(1, ⟨1, .state 1, none⟩), (1, ⟨3, .state 3, none⟩), (2, ⟨2, .state 2, none⟩),
        (2, ⟨4, .state 4, none⟩)] }

/-- A database that reads one value at a time. -/
def singleStepDatabase : Database Memory := ⟨Memory.backend, .all, 1, 1, by decide, by decide⟩

/-- The third scan of a stream looks for what comes after the first row, brings a row that is not in
the store, and fails. -/
theorem reads_truthful_lost_cursor :
    let lost : BackendFailure := .unavailable "cursor lost"
    let faults : Faults := fun n => if n = 2 then some ([⟨1, 3, .state 9, none⟩], lost) else none
    let faulty := singleStepDatabase.onto (singleStepDatabase.backend.withFaults faults)
    let q : Inquiry := .streamCombined [⟨8, 2⟩, ⟨7, 1⟩] none none none .ascending 6
    let whole := (q.run singleStepDatabase interleavedStore).1
    let got := q.run faulty (.start interleavedStore)
    whole.failure = none ∧ whole.reports.length = 4 ∧
      got.1 = ⟨[.row ⟨1, 1, .state 1, none⟩], some (.ofBackend lost)⟩ ∧
      Reading.Truthful whole got.1 [] got.2.failures := by
  intro lost faults faulty q whole got
  have hdb : singleStepDatabase.OverMemory := .inl rfl
  obtain ⟨htruthful, -, -⟩ := reads_truthful hdb interleavedStore faults
  exact ⟨by decide +kernel, by decide +kernel, by decide +kernel, htruthful q⟩

/-- A failing scan that a span passes over: the third scan comes after the first row was chosen, and
the fourth is the first one of the second half, so the read reports the second failure. -/
theorem span_reports_second_failure :
    let first : BackendFailure := .unavailable "cursor lost"
    let second : BackendFailure := .unavailable "disk gone"
    let faults : Faults := fun n => if n = 2 then some ([], first) else if n = 3 then some ([], second)
      else none
    let faulty := singleStepDatabase.onto (singleStepDatabase.backend.withFaults faults)
    let q : Inquiry := .span [⟨8, 2⟩, ⟨7, 1⟩]
    let whole := (q.run singleStepDatabase interleavedStore).1
    let got := q.run faulty (.start interleavedStore)
    whole = ⟨[.time 1, .time 4], none⟩ ∧ got.2.failures = [first, second] ∧
      got.1 = ⟨[], some (.ofBackend second)⟩ ∧ got.1.failure ≠ some (.ofBackend first) := by
  decide +kernel

/-- With a limit of one row the same failure comes when nothing is missing any more. -/
example :
    let faults : Faults := fun n => if n = 2 then some ([], .unavailable "cursor lost") else none
    let faulty := singleStepDatabase.onto (singleStepDatabase.backend.withFaults faults)
    let q : Inquiry := .combined [⟨8, 2⟩, ⟨7, 1⟩] none none (some 1) .ascending
    let got := q.run faulty (.start interleavedStore)
    got.1 = ⟨[.row ⟨1, 1, .state 1, none⟩], none⟩ ∧
      got.2.failures = [.unavailable "cursor lost"] := by
  decide +kernel

end Database

end Historian
