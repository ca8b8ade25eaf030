import Historian.Proofs.Read.Changing
import Historian.Proofs.Read.FailingStreams

/-!
# Leases

A store counts the leases that it has handed out.  The user of a database opens streams, asks them,
closes them and drops them in any order, while scans fail and whatever else happens to the store;
from what he is answered alone one can tell at any time how many leases are out.

* `Backend.CountsLeases` — what counting means.  What becomes of the count when a lease comes back
  that is not out is left open, so what is proved of a count says that this does not happen.
* `StreamBody.next_invariant` — what no scan changes is not changed by asking for a row.
* `Database.Accounts.step` — what one use of the streams does, and `Database.useAll_eq_append` —
  what many do, by induction.
* `Database.useAll_accounted` — no lease is lost or comes back twice, and a closed stream is done.
-/

set_option autoImplicit false

namespace Historian

variable {σ : Type} {b : Backend σ} {count : σ → Nat}

/-! ## Counting -/

/-- A store with a count of the leases that it has handed out and that have not come back. -/
structure Backend.CountsLeases (b : Backend σ) (count : σ → Nat) : Prop where
  scan : ∀ request s, count (b.scan request s).2 = count s
  openLease : ∀ s,
    (∃ e, (b.openLease s).1 = .error e) ∧ count (b.openLease s).2 = count s ∨
      (b.openLease s).1 = .ok ⟨true⟩ ∧ count (b.openLease s).2 = count s + 1
  releaseLease : ∀ s, 0 < count s → count (b.releaseLease ⟨true⟩ s) + 1 = count s

/-- The store in memory counts its leases, whatever `release` makes of one that is not out. -/
theorem Memory.countsLeases {release : Lease → Memory → Memory}
    (h : ∀ l m, l.releases ≤ m.openLeases → release l m = backend.releaseLease l m) :
    ({ backend with releaseLease := release }).CountsLeases Memory.openLeases where
  scan request m := by
    simp only [backend, Memory.scan]
    split <;> rfl
  openLease m := .inr ⟨rfl, rfl⟩
  releaseLease m hm := by
    have hout : (⟨true⟩ : Lease).releases ≤ m.openLeases := hm
    show (release ⟨true⟩ m).openLeases + 1 = m.openLeases
    rw [h _ m hout]
    exact Nat.sub_add_cancel hm

/-! ## Asking for a row -/

/-- A backend of which only the scans are of interest. -/
def Backend.scansOnly (b : Backend σ) : Backend σ :=
  { b with openLease := fun s => (.ok .detached, s), releaseLease := fun _ s => s }

namespace StreamBody

theorem nextInTurn_scansOnly (b : Backend σ) (sources : List LimitedCursor) :
    nextInTurn b.scansOnly sources = nextInTurn b sources := by
  induction sources with
  | nil => rfl
  | cons c rest ih =>
    simp only [nextInTurn, ih]
    rfl

theorem next_scansOnly (b : Backend σ) (body : StreamBody) :
    body.next b.scansOnly = body.next b := by
  cases body with
  | inTurn sources => simp only [next, nextInTurn_scansOnly]
  | merged d m => rfl

/-- What no scan changes is not changed by asking for a row, for nothing else is done then: the
store mirrors itself in this respect. -/
theorem next_invariant {I : σ → Prop} (hscan : ∀ request s, I s → I (b.scan request s).2)
    (body : StreamBody) {s : σ} (hs : I s) : I (body.next b s).2 := by
  have hmirrors : b.scansOnly.Mirrors b.scansOnly (fun t s => t = s ∧ I s) fun _ _ => False := {
    scan := by
      rintro request t s ⟨rfl, hs⟩
      exact .inl ⟨⟨rfl, fun _ => rfl⟩, rfl, hscan request t hs⟩
    openLease := fun h => ⟨rfl, h⟩
    releaseLease := fun _ _ _ h => h
    releaseLease_after := fun _ _ _ h => h }
  have hnext := body.next_alike hmirrors ⟨rfl, hs⟩
  rw [next_scansOnly] at hnext
  cases hnext with
  | same _ h => exact h.2
  | failed h => exact h.elim
  | doomed h => exact h.elim

end StreamBody

namespace Stream

/-- A stream that holds a counted lease or none, and none once it is closed. -/
structure Sound (t : Stream) : Prop where
  closed : t.body = none → t.lease = none
  held : ∀ l, t.lease = some l → l = ⟨true⟩

/-- Whether the stream has still to give a lease back. -/
def owes (t : Stream) : Bool := t.lease.isSome

/-- A stream that has been closed and holds nothing. -/
def Shut (t : Stream) : Prop := t.body = none ∧ t.lease = none

variable {t : Stream} {s : σ}

theorem Shut.sound (h : t.Shut) : t.Sound := ⟨fun _ => h.2, by simp [h.2]⟩

theorem Shut.owes (h : t.Shut) : t.owes = false := by simp [Stream.owes, h.2]

/-- A closed stream answers that it has ended, and does not look at the store. -/
theorem Shut.next (h : t.Shut) (b : Backend σ) (s : σ) : t.next b s = ((.ended, t), s) := by
  obtain ⟨body, lease, remaining⟩ := t
  obtain ⟨rfl, rfl⟩ : body = none ∧ lease = none := h
  by_cases hzero : remaining = some 0 <;> simp [Stream.next, Stream.close, hzero]

theorem close_settles (h : b.CountsLeases count) (ht : t.Sound) (hs : t.owes.toNat ≤ count s) :
    ∃ t' s', t.close b s = (t', s') ∧ t'.Shut ∧ count s' + t.owes.toNat = count s := by
  refine ⟨_, _, rfl, ⟨rfl, rfl⟩, ?_⟩
  cases hlease : t.lease with
  | none => simp [owes, hlease]
  | some l =>
    obtain rfl := ht.held l hlease
    have hout : 0 < count s := by
      simp [owes, hlease] at hs
      omega
    simpa [owes, hlease] using h.releaseLease s hout

/-- A stream keeps its lease as long as it gives rows, and gives it back with any other answer. -/
theorem next_settles (h : b.CountsLeases count) (ht : t.Sound) (hs : t.owes.toNat ≤ count s) :
    ∃ item t' s', t.next b s = ((item, t'), s') ∧
      ((∃ r, item = .value r) ∧ t'.Sound ∧ t'.owes = t.owes ∧ count s' = count s ∨
        (∀ r, item ≠ .value r) ∧ t'.Shut ∧ count s' + t.owes.toNat = count s) := by
  by_cases hzero : t.remaining = some 0
  · obtain ⟨t', s', hclose, hshut, hcount⟩ := close_settles h ht hs
    exact ⟨.ended, t', s', by simp only [next, hzero, if_true, hclose],
      .inr ⟨by simp, hshut, hcount⟩⟩
  cases hbody : t.body with
  | none =>
    have hlease := ht.closed hbody
    refine ⟨.ended, t, s, by simp only [next, hzero, if_false, hbody],
      .inr ⟨by simp, ⟨hbody, hlease⟩, by simp [owes, hlease]⟩⟩
  | some body =>
    have hkept : count (body.next b s).2 = count s :=
      body.next_invariant (fun request s' h' => (h.scan request s').trans h') rfl
    rcases hnext : body.next b s with ⟨⟨item, body'⟩, s'⟩
    rw [hnext] at hkept
    have hopen : ({ t with body := some body' } : Stream).Sound := ⟨by simp, ht.held⟩
    cases hitem : item with
    | value r =>
      refine ⟨.value r, { t with body := some body', remaining := t.remaining.map (· - 1) }, s',
        by simp only [next, hzero, if_false, hbody, hnext, hitem], .inl ⟨⟨r, rfl⟩, ?_, rfl, hkept⟩⟩
      exact ⟨by simp, ht.held⟩
    | failure e =>
      obtain ⟨t', s'', hclose, hshut, hcount⟩ := close_settles (s := s') h hopen (hkept ▸ hs)
      exact ⟨.failure e, t', s'', by simp only [next, hzero, if_false, hbody, hnext, hitem, hclose],
        .inr ⟨by simp, hshut, hcount.trans hkept⟩⟩
    | ended =>
      obtain ⟨t', s'', hclose, hshut, hcount⟩ := close_settles (s := s') h hopen (hkept ▸ hs)
      exact ⟨.ended, t', s'', by simp only [next, hzero, if_false, hbody, hnext, hitem, hclose],
        .inr ⟨by simp, hshut, hcount.trans hkept⟩⟩

end Stream

/-! ## Using streams -/

namespace Database

/-- The streams that a user has asked for, in the order in which he did: those that he was refused
or has dropped are gone. -/
abbrev Desk := List (Option Stream)

/-- What may be done next: something with the streams, or with the store, where it leaves the count
alone.  A stream of the values of one point is one of several points, of which there is one. -/
inductive Use (count : σ → Nat)
  | openPerPoint (q : Query)
  | openCombined (q : Query)
  | next (n : Nat)
  | close (n : Nat)
  | drop (n : Nat)
  | other (change : σ → σ) (keeps : ∀ s, count (change s) = count s)

/-- What the user is answered. -/
inductive Answer
  | opened
  | refused (cause : Failure)
  | pulled (item : Pulled Row)
  | done
  /-- There is no such stream. -/
  | absent

namespace Desk

/-- Opens a stream, and takes it in. -/
def takeIn (desk : Desk) (opening : StateM σ (Except Failure Stream)) : StateM σ (Answer × Desk) :=
  fun s =>
    match opening s with
    | (.ok t, s) => ((.opened, desk ++ [some t]), s)
    | (.error e, s) => ((.refused e, desk ++ [none]), s)

/-- Works on one of the streams, and keeps what becomes of it. -/
def on (desk : Desk) (n : Nat) (act : Stream → StateM σ (Answer × Option Stream)) :
    StateM σ (Answer × Desk) := fun s =>
  match desk[n]? with
  | some (some t) =>
    let ((answer, slot), s) := act t s
    ((answer, desk.set n slot), s)
  | _ => ((.absent, desk), s)

/-- Whether there is a stream that has still to give a lease back. -/
def owes (slot : Option Stream) : Bool := slot.any Stream.owes

end Desk

/-- Does what is to be done. -/
def use (db : Database σ) (desk : Desk) : Use count → StateM σ (Answer × Desk)
  | .openPerPoint q => desk.takeIn (db.streamPerPoint q.points q.start q.stop q.limit q.direction)
  | .openCombined q => desk.takeIn (db.streamCombined q.points q.start q.stop q.limit q.direction)
  | .next n => desk.on n fun t => do
    let (item, t) ← t.next db.backend
    return (.pulled item, some t)
  | .close n => desk.on n fun t => do
    let t ← t.close db.backend
    return (.done, some t)
  | .drop n => desk.on n fun t => do
    let _ ← t.close db.backend
    return (.done, none)
  | .other change _ => fun s => ((.done, desk), change s)

/-- Something that has been done. -/
structure Deed (count : σ → Nat) where
  use : Use count
  answer : Answer
  found : σ
  left : σ

/-- Does one thing after the other, and puts down every one. -/
def useAll (db : Database σ) : List (Use count) → Desk → σ → List (Deed count)
  | [], _, _ => []
  | u :: rest, desk, s =>
    let ((answer, desk'), s') := db.use desk u s
    ⟨u, answer, s, s'⟩ :: db.useAll rest desk' s'

/-- Marks the streams that hold a lease, going by what has been answered: one that has been opened
with a limit other than zero does, until it ends or fails or is closed or dropped. -/
def Deed.mark (marks : List Bool) (deed : Deed count) : List Bool :=
  match deed.use, deed.answer with
  | .openPerPoint q, .opened => marks ++ [q.limit != some 0]
  | .openCombined q, .opened => marks ++ [q.limit != some 0]
  | .openPerPoint _, _ => marks ++ [false]
  | .openCombined _, _ => marks ++ [false]
  | .next n, .pulled .ended => marks.set n false
  | .next n, .pulled (.failure _) => marks.set n false
  | .close n, .done => marks.set n false
  | .drop n, .done => marks.set n false
  | _, _ => marks

/-- How many streams hold a lease, going by what has been answered. -/
def live (deeds : List (Deed count)) : Nat := (deeds.foldl Deed.mark []).count true

variable {db : Database σ} {base : Nat} {deeds : List (Deed count)} {desk : Desk} {s : σ}

/-- The count of a store agrees with the streams in use, and these with what has been answered. -/
structure Accounts (base : Nat) (deeds : List (Deed count)) (desk : Desk) (s : σ) : Prop where
  sound : ∀ t, some t ∈ desk → t.Sound
  marks : deeds.foldl Deed.mark [] = desk.map Desk.owes
  counted : count s = base + desk.countP Desk.owes

theorem Accounts.live_eq (h : Accounts base deeds desk s) : count s = base + live deeds := by
  have howes : (fun slot => Desk.owes slot == true) = Desk.owes := by
    funext slot
    simp
  rw [live, h.marks, List.count_eq_countP, List.countP_map, h.counted]
  exact congrArg (base + List.countP · desk) howes.symm

/-- A stream in use has its lease counted. -/
theorem Accounts.owes_le (h : Accounts base deeds desk s) {n : Nat} {t : Stream}
    (hn : desk[n]? = some (some t)) : t.owes.toNat ≤ count s := by
  cases howes : t.owes with
  | false => exact Nat.zero_le _
  | true =>
    have hpos : 0 < desk.countP Desk.owes :=
      List.countP_pos_iff.2 ⟨some t, List.mem_of_getElem? hn, howes⟩
    rw [h.counted, Bool.toNat_true]
    omega

/-- A stream that has been asked for comes last. -/
theorem Accounts.takeIn (h : Accounts base deeds desk s) {deed : Deed count} {slot : Option Stream}
    {s' : σ} (hsound : ∀ t, slot = some t → t.Sound)
    (hcount : count s' = count s + (Desk.owes slot).toNat)
    (hmark : ∀ marks, deed.mark marks = marks ++ [Desk.owes slot]) :
    Accounts base (deeds ++ [deed]) (desk ++ [slot]) s' where
  sound t ht := by
    rcases List.mem_append.1 ht with ht | ht
    · exact h.sound t ht
    · exact hsound t (List.mem_singleton.1 ht).symm
  marks := by
    rw [List.foldl_append, h.marks, List.map_append]
    exact hmark _
  counted := by
    rw [hcount, h.counted, List.countP_append, List.countP_singleton]
    cases Desk.owes slot <;> simp [Nat.add_assoc]

/-- What a stream no longer owes has been given back. -/
theorem Accounts.replace (h : Accounts base deeds desk s) {deed : Deed count} {n : Nat} {t : Stream}
    {slot : Option Stream} {s' : σ} (hn : desk[n]? = some (some t))
    (hsound : ∀ t', slot = some t' → t'.Sound)
    (hcount : count s' + t.owes.toNat = count s + (Desk.owes slot).toNat)
    (hmark : deed.mark (desk.map Desk.owes) = (desk.map Desk.owes).set n (Desk.owes slot)) :
    Accounts base (deeds ++ [deed]) (desk.set n slot) s' where
  sound t' ht' := by
    rcases List.mem_or_eq_of_mem_set ht' with ht' | ht'
    · exact h.sound t' ht'
    · exact hsound t' ht'.symm
  marks := by
    rw [List.foldl_append, h.marks, List.map_set]
    exact hmark
  counted := by
    have hcounted := h.counted
    obtain ⟨hlt, hget⟩ := List.getElem?_eq_some_iff.1 hn
    have hone (flag : Bool) : (if flag = true then 1 else 0) = flag.toNat := by cases flag <;> rfl
    have hout := List.boole_getElem_le_countP (p := Desk.owes) hlt
    rw [List.countP_set hlt]
    rw [hget] at hout ⊢
    simp only [hone] at hout ⊢
    simp only [Desk.owes, Option.any_some] at hout hcount ⊢
    omega

/-- Something that has to do with no lease. -/
theorem Accounts.keep (h : Accounts base deeds desk s) {deed : Deed count} {s' : σ}
    (hcount : count s' = count s) (hmark : ∀ marks, deed.mark marks = marks) :
    Accounts base (deeds ++ [deed]) desk s' where
  sound := h.sound
  marks := by
    rw [List.foldl_append, h.marks]
    exact hmark _
  counted := hcount.trans h.counted

theorem limit_eq_zero_iff {start stop : Option Timestamp} {arg : Option Int} {w : Window}
    {limit : Option Nat} (h : checkArguments start stop arg = .ok (w, limit)) :
    limit = some 0 ↔ arg = some 0 := by
  have hlimit := (checkArguments_eq_ok_iff.1 h).2
  obtain ⟨-, rfl⟩ := ok_of_checkArguments h
  cases arg with
  | none => simp
  | some l =>
    rw [checkLimit] at hlimit
    split at hlimit
    · cases hlimit
    · simp
      omega

/-- A stream is opened with a lease, unless it cannot give a row; one that is refused has none. -/
theorem openStream_settles (h : db.backend.CountsLeases count) (points : List Point)
    (start stop : Option Timestamp) (limit : Option Int) (d : Direction)
    (body : List LimitedCursor → StreamBody) (total : Option Nat → Option Nat) (s : σ) :
    (∃ e s', db.openStream points start stop limit d body total s = (.error e, s') ∧
        count s' = count s) ∨
      ∃ t s', db.openStream points start stop limit d body total s = (.ok t, s') ∧
        t.Sound ∧ t.owes = (limit != some 0) ∧ count s' = count s + t.owes.toNat := by
  unfold openStream
  cases hargs : checkArguments start stop limit with
  | error e => exact .inl ⟨e, s, rfl, rfl⟩
  | ok args =>
    obtain ⟨w, l⟩ := args
    have hzero := limit_eq_zero_iff hargs
    by_cases hnone : l = some 0
    · refine .inr ⟨.empty, s, by simp only [hnone, if_true], ⟨fun _ => rfl, nofun⟩, ?_, rfl⟩
      rw [hzero.1 hnone]
      rfl
    · have hlimit : (limit != some 0) = true := bne_iff_ne.2 (mt hzero.2 hnone)
      simp only [hnone, if_false, hlimit]
      rcases h.openLease s with ⟨⟨e, hanswer⟩, hcount⟩ | ⟨hanswer, hcount⟩
      · rcases hopen : db.backend.openLease s with ⟨answer, s'⟩
        rw [hopen] at hanswer hcount
        obtain rfl := hanswer
        exact .inl ⟨_, s', rfl, hcount⟩
      · rcases hopen : db.backend.openLease s with ⟨answer, s'⟩
        rw [hopen] at hanswer hcount
        obtain rfl := hanswer
        exact .inr ⟨_, s', rfl, ⟨nofun, fun l hl => (Option.some.inj hl).symm⟩, rfl, hcount⟩

theorem Desk.owes_of_shut {t : Stream} (h : t.Shut) : Desk.owes (some t) = false := h.owes

/-- What one use of the streams does. -/
theorem Accounts.on (h : Accounts base deeds desk s) {u : Use count} {n : Nat}
    {act : Stream → StateM σ (Answer × Option Stream)}
    (hact : ∀ t, desk[n]? = some (some t) → ∃ answer slot s', act t s = ((answer, slot), s') ∧
      (∀ t', slot = some t' → t'.Sound) ∧
      count s' + t.owes.toNat = count s + (Desk.owes slot).toNat ∧
      (⟨u, answer, s, s'⟩ : Deed count).mark (desk.map Desk.owes) =
        (desk.map Desk.owes).set n (Desk.owes slot))
    (habsent : ∀ marks, (⟨u, .absent, s, s⟩ : Deed count).mark marks = marks) :
    ∃ answer desk' s', desk.on n act s = ((answer, desk'), s') ∧
      Accounts base (deeds ++ [⟨u, answer, s, s'⟩]) desk' s' := by
  cases hn : desk[n]? with
  | none => exact ⟨.absent, desk, s, by simp only [Desk.on, hn], h.keep rfl habsent⟩
  | some slot =>
    cases slot with
    | none => exact ⟨.absent, desk, s, by simp only [Desk.on, hn], h.keep rfl habsent⟩
    | some t =>
      obtain ⟨answer, slot, s', hdone, hsound, hcount, hmark⟩ := hact t hn
      exact ⟨answer, _, s', by simp only [Desk.on, hn, hdone], h.replace hn hsound hcount hmark⟩

/-- What opening a stream does. -/
theorem Accounts.opening (hb : db.backend.CountsLeases count) (h : Accounts base deeds desk s)
    {u : Use count} (q : Query) {body : List LimitedCursor → StreamBody}
    {total : Option Nat → Option Nat}
    (hopened : ∀ s' marks,
      (⟨u, .opened, s, s'⟩ : Deed count).mark marks = marks ++ [q.limit != some 0])
    (hrefused : ∀ e s' marks,
      (⟨u, .refused e, s, s'⟩ : Deed count).mark marks = marks ++ [false]) :
    ∃ answer desk' s',
      desk.takeIn (db.openStream q.points q.start q.stop q.limit q.direction body total) s =
        ((answer, desk'), s') ∧
      Accounts base (deeds ++ [⟨u, answer, s, s'⟩]) desk' s' := by
  rcases db.openStream_settles hb q.points q.start q.stop q.limit q.direction body total s with
    ⟨e, s', hopen, hcount⟩ | ⟨t, s', hopen, hsound, howes, hcount⟩
  · exact ⟨.refused e, desk ++ [none], s', by simp only [Desk.takeIn, hopen],
      h.takeIn (by simp) hcount (hrefused e s')⟩
  · refine ⟨.opened, desk ++ [some t], s', by simp only [Desk.takeIn, hopen],
      h.takeIn (fun t' ht' => Option.some.inj ht' ▸ hsound) hcount fun marks => ?_⟩
    rw [hopened, ← howes]
    rfl

theorem Accounts.step (hb : db.backend.CountsLeases count) (h : Accounts base deeds desk s)
    (u : Use count) :
    ∃ answer desk' s', db.use desk u s = ((answer, desk'), s') ∧
      Accounts base (deeds ++ [⟨u, answer, s, s'⟩]) desk' s' := by
  cases u with
  | openPerPoint q => exact h.opening hb q (fun _ _ => rfl) fun _ _ _ => rfl
  | openCombined q => exact h.opening hb q (fun _ _ => rfl) fun _ _ _ => rfl
  | next n =>
    simp only [use]
    refine h.on (u := .next n) (fun t hn => ?_) fun _ => rfl
    obtain ⟨item, t', s', hnext, hkept | hgiven⟩ :=
      Stream.next_settles hb (h.sound t (List.mem_of_getElem? hn)) (h.owes_le hn)
    · obtain ⟨⟨r, rfl⟩, hsound, howes, hcount⟩ := hkept
      refine ⟨.pulled (.value r), some t', s', bind_run hnext,
        fun _ ht' => Option.some.inj ht' ▸ hsound, ?_, ?_⟩
      · rw [hcount, ← howes]
        rfl
      · -- the mark of a stream that goes on stays as it is
        have hslot : (desk.map Desk.owes)[n]? = some t'.owes := by simp [hn, Desk.owes, howes]
        obtain ⟨hlt, hget⟩ := List.getElem?_eq_some_iff.1 hslot
        rw [Desk.owes, Option.any_some, ← hget, List.set_getElem_self]
        rfl
    · obtain ⟨hitem, hshut, hcount⟩ := hgiven
      refine ⟨.pulled item, some t', s', bind_run hnext,
        fun _ ht' => Option.some.inj ht' ▸ hshut.sound, ?_, ?_⟩
      · rw [hcount, Desk.owes_of_shut hshut]
        rfl
      · rw [Desk.owes_of_shut hshut]
        cases item with
        | value r => exact absurd rfl (hitem r)
        | ended => rfl
        | failure e => rfl
  | close n =>
    simp only [use]
    refine h.on (u := .close n) (fun t hn => ?_) fun _ => rfl
    obtain ⟨t', s', hclose, hshut, hcount⟩ :=
      Stream.close_settles hb (h.sound t (List.mem_of_getElem? hn)) (h.owes_le hn)
    refine ⟨.done, some t', s', bind_run hclose,
      fun _ ht' => Option.some.inj ht' ▸ hshut.sound, ?_, ?_⟩
    · rw [hcount, Desk.owes_of_shut hshut]
      rfl
    · rw [Desk.owes_of_shut hshut]
      rfl
  | drop n =>
    simp only [use]
    refine h.on (u := .drop n) (fun t hn => ?_) fun _ => rfl
    obtain ⟨t', s', hclose, -, hcount⟩ :=
      Stream.close_settles hb (h.sound t (List.mem_of_getElem? hn)) (h.owes_le hn)
    refine ⟨.done, none, s', bind_run hclose,
      fun _ ht' => absurd ht'.symm (Option.some_ne_none _), ?_, rfl⟩
    rw [hcount]
    rfl
  | other change keeps => exact ⟨.done, desk, change s, rfl, h.keep (keeps s) fun _ => rfl⟩

/-- What is done first leaves accounts for what is done after it. -/
theorem useAll_eq_append (hb : db.backend.CountsLeases count) {uses : List (Use count)}
    {before later : List (Deed count)} {deed : Deed count} (h : Accounts base deeds desk s)
    (hrun : db.useAll uses desk s = before ++ deed :: later) :
    ∃ desk₁ desk₂ rest, Accounts base (deeds ++ before) desk₁ deed.found ∧
      db.use desk₁ deed.use deed.found = ((deed.answer, desk₂), deed.left) ∧
      Accounts base (deeds ++ (before ++ [deed])) desk₂ deed.left ∧
      later = db.useAll rest desk₂ deed.left := by
  induction before generalizing uses deeds desk s with
  | nil =>
    cases uses with
    | nil => cases hrun
    | cons u rest =>
      obtain ⟨answer, desk', s', huse, haccounts⟩ := h.step hb u
      simp only [useAll, huse] at hrun
      obtain ⟨rfl, rfl⟩ := List.cons.inj hrun
      exact ⟨desk, desk', rest, by rwa [List.append_nil], huse, haccounts, rfl⟩
  | cons first before ih =>
    cases uses with
    | nil => cases hrun
    | cons u rest =>
      obtain ⟨answer, desk', s', huse, haccounts⟩ := h.step hb u
      simp only [useAll, huse] at hrun
      obtain ⟨rfl, hrest⟩ := List.cons.inj hrun
      simpa only [List.append_assoc, List.cons_append, List.nil_append] using ih haccounts hrest

/-! ## Closed streams -/

/-- One of the streams is there and has been closed. -/
def Desk.ShutAt (desk : Desk) (n : Nat) : Prop := ∃ t, desk[n]? = some (some t) ∧ t.Shut

/-- Whether a stream has been closed by what was done, on its own account or its user's. -/
def Deed.Closes (deed : Deed count) (n : Nat) : Prop :=
  deed.use = .close n ∧ deed.answer = .done ∨
    deed.use = .next n ∧ ∃ item, deed.answer = .pulled item ∧ ∀ r, item ≠ .value r

theorem Desk.ShutAt.of_set {n : Nat} {slot : Option Stream} {t : Stream}
    (hn : desk[n]? = some slot) (h : t.Shut) : ShutAt (desk.set n (some t)) n :=
  ⟨t, List.getElem?_set_self (List.getElem?_eq_some_iff.1 hn).1, h⟩

theorem Desk.getElem?_takeIn {opening : StateM σ (Except Failure Stream)} {answer : Answer}
    {desk' : Desk} {s' : σ} (h : desk.takeIn opening s = ((answer, desk'), s')) {n : Nat}
    {slot : Option Stream} (hn : desk[n]? = some slot) : desk'[n]? = some slot := by
  have hlt : n < desk.length := (List.getElem?_eq_some_iff.1 hn).1
  rcases hopen : opening s with ⟨_ | t, s''⟩ <;> simp only [takeIn, hopen] at h <;> cases h
  all_goals rwa [List.getElem?_append_left hlt]

theorem Desk.on_self {act : Stream → StateM σ (Answer × Option Stream)} {n : Nat} {t : Stream}
    (hn : desk[n]? = some (some t)) {answer : Answer} {slot : Option Stream} {s' : σ}
    (hact : act t s = ((answer, slot), s')) :
    desk.on n act s = ((answer, desk.set n slot), s') := by
  simp only [on, hn, hact]

theorem Desk.getElem?_on {act : Stream → StateM σ (Answer × Option Stream)} {m n : Nat}
    {answer : Answer} {desk' : Desk} {s' : σ} (h : desk.on m act s = ((answer, desk'), s'))
    (hne : m ≠ n) : desk'[n]? = desk[n]? := by
  unfold on at h
  split at h
  · cases h
    exact List.getElem?_set_ne hne
  · cases h
    rfl

/-- A closed stream answers that it has ended, and does not look at the store. -/
theorem Desk.ShutAt.next {n : Nat} (h : desk.ShutAt n) (count : σ → Nat) (db : Database σ) (s : σ) :
    ∃ desk', db.use desk (.next n : Use count) s = ((.pulled .ended, desk'), s) ∧
      desk'.ShutAt n := by
  obtain ⟨t, hn, hshut⟩ := h
  refine ⟨desk.set n (some t), ?_, .of_set hn hshut⟩
  simp only [Database.use]
  exact on_self hn (bind_run (hshut.next db.backend s))

/-- A closed stream is still closed after anything but dropping it. -/
theorem Desk.ShutAt.use {n : Nat} (h : desk.ShutAt n) (u : Use count) (hdrop : u ≠ .drop n)
    {answer : Answer} {desk' : Desk} {s' : σ} (huse : db.use desk u s = ((answer, desk'), s')) :
    desk'.ShutAt n := by
  obtain ⟨t, hn, hshut⟩ := h
  cases u with
  | openPerPoint q => exact ⟨t, getElem?_takeIn huse hn, hshut⟩
  | openCombined q => exact ⟨t, getElem?_takeIn huse hn, hshut⟩
  | next m =>
    by_cases hm : m = n
    · subst hm
      obtain ⟨desk'', hnext, hshut''⟩ := ShutAt.next ⟨t, hn, hshut⟩ count db s
      cases huse.symm.trans hnext
      exact hshut''
    · simp only [Database.use] at huse
      exact ⟨t, (getElem?_on huse hm).trans hn, hshut⟩
  | close m =>
    simp only [Database.use] at huse
    by_cases hm : m = n
    · subst hm
      rw [on_self hn rfl] at huse
      cases huse
      exact .of_set hn ⟨rfl, rfl⟩
    · exact ⟨t, (getElem?_on huse hm).trans hn, hshut⟩
  | drop m =>
    simp only [Database.use] at huse
    have hm : m ≠ n := fun hm => hdrop (hm ▸ rfl)
    exact ⟨t, (getElem?_on huse hm).trans hn, hshut⟩
  | other change keeps =>
    cases huse
    exact ⟨t, hn, hshut⟩

/-- A stream that has been closed by what was done. -/
theorem Accounts.shutAt (hb : db.backend.CountsLeases count) (h : Accounts base deeds desk s)
    {u : Use count} {answer : Answer} {desk' : Desk} {s' : σ} {n : Nat}
    (huse : db.use desk u s = ((answer, desk'), s'))
    (hcloses : (⟨u, answer, s, s'⟩ : Deed count).Closes n) : desk'.ShutAt n := by
  have hpresent : ∀ {act : Stream → StateM σ (Answer × Option Stream)},
      desk.on n act s = ((answer, desk'), s') → answer ≠ .absent →
        ∃ t, desk[n]? = some (some t) := by
    intro act hon hanswer
    unfold Desk.on at hon
    split at hon
    · exact ⟨_, ‹_›⟩
    · cases hon
      exact absurd rfl hanswer
  rcases hcloses with ⟨hclose, hdone⟩ | ⟨hnext, item, hpulled, hitem⟩
  · obtain rfl : u = .close n := hclose
    obtain rfl : answer = .done := hdone
    simp only [Database.use] at huse
    obtain ⟨t, hn⟩ := hpresent huse nofun
    rw [Desk.on_self hn rfl] at huse
    cases huse
    exact .of_set hn ⟨rfl, rfl⟩
  · obtain rfl : u = .next n := hnext
    obtain rfl : answer = .pulled item := hpulled
    simp only [Database.use] at huse
    obtain ⟨t, hn⟩ := hpresent huse nofun
    obtain ⟨item', t', s'', hnext, hanswered⟩ :=
      Stream.next_settles hb (h.sound t (List.mem_of_getElem? hn)) (h.owes_le hn)
    rw [Desk.on_self hn (bind_run hnext)] at huse
    cases huse
    rcases hanswered with ⟨⟨r, rfl⟩, -⟩ | ⟨-, hshut, -⟩
    · exact absurd rfl (hitem r)
    · exact .of_set hn hshut

/-- As long as a closed stream is not dropped, it answers that it has ended and leaves the store
alone. -/
theorem useAll_shutAt {n : Nat} {uses : List (Use count)} {between later : List (Deed count)}
    {deed : Deed count} (h : desk.ShutAt n)
    (hrun : db.useAll uses desk s = between ++ deed :: later)
    (hkept : ∀ x ∈ between, x.use ≠ .drop n) (hnext : deed.use = .next n) :
    deed.answer = .pulled .ended ∧ deed.left = deed.found := by
  induction between generalizing uses desk s with
  | nil =>
    cases uses with
    | nil => cases hrun
    | cons u rest =>
      rcases huse : db.use desk u s with ⟨⟨answer, desk'⟩, s'⟩
      simp only [useAll, huse] at hrun
      obtain ⟨rfl, -⟩ := List.cons.inj hrun
      obtain rfl : u = .next n := hnext
      obtain ⟨desk'', hanswer, -⟩ := h.next count db s
      cases huse.symm.trans hanswer
      exact ⟨rfl, rfl⟩
  | cons first between ih =>
    cases uses with
    | nil => cases hrun
    | cons u rest =>
      rcases huse : db.use desk u s with ⟨⟨answer, desk'⟩, s'⟩
      simp only [useAll, huse] at hrun
      obtain ⟨rfl, hrest⟩ := List.cons.inj hrun
      have hdrop : u ≠ .drop n := hkept _ List.mem_cons_self
      exact ih (h.use u hdrop huse) hrest fun x hx => hkept x (List.mem_cons_of_mem _ hx)

/-! ## Everything that is done -/

/-- What using the streams of a database comes to, on a store with `base` leases out before. -/
structure Accounted (base : Nat) (deeds : List (Deed count)) : Prop where
  /-- At any time, as many leases are out as streams hold one. -/
  counted : ∀ before deed later, deeds = before ++ deed :: later →
    count deed.left = base + live (before ++ [deed])
  /-- A stream that is refused has no lease. -/
  refused : ∀ deed ∈ deeds, ∀ e, deed.answer = .refused e → count deed.left = count deed.found
  /-- A closed stream has ended for good, and looks at the store no more. -/
  closed : ∀ before deed between next later n, deeds = before ++ deed :: between ++ next :: later →
    deed.Closes n → (∀ x ∈ between, x.use ≠ .drop n) → next.use = .next n →
      next.answer = .pulled .ended ∧ next.left = next.found

theorem live_of_refused {deed : Deed count} {e : Failure} (h : deed.answer = .refused e) :
    live (deeds ++ [deed]) = live deeds := by
  obtain ⟨u, answer, found, left⟩ := deed
  obtain rfl : answer = .refused e := h
  rw [live, List.foldl_append, live]
  cases u <;> simp [Deed.mark]

/-- No lease is lost, and none comes back that is not out: of a store to which that happened nothing
is known. -/
theorem useAll_accounted (hb : db.backend.CountsLeases count) (uses : List (Use count)) (s : σ) :
    Accounted (count s) (db.useAll uses [] s) := by
  have hstart : Accounts (count s) ([] : List (Deed count)) [] s := ⟨by simp, rfl, by simp⟩
  generalize hrun : db.useAll uses [] s = deeds
  refine ⟨fun before deed later heq => ?_, fun deed hdeed e hrefused => ?_,
    fun before deed between next later n heq hcloses hkept hnext => ?_⟩
  · obtain ⟨_, _, _, -, -, haccounts, -⟩ := useAll_eq_append hb hstart (hrun.trans heq)
    exact haccounts.live_eq
  · obtain ⟨before, later, heq⟩ := List.append_of_mem hdeed
    obtain ⟨_, _, _, hbefore, -, hafter, -⟩ := useAll_eq_append hb hstart (hrun.trans heq)
    rw [hbefore.live_eq, hafter.live_eq, List.nil_append, List.nil_append, live_of_refused hrefused]
  · rw [List.append_assoc] at heq
    obtain ⟨_, _, rest, hbefore, huse, -, hlater⟩ := useAll_eq_append hb hstart (hrun.trans heq)
    have hshut := hbefore.shutAt hb huse hcloses
    exact useAll_shutAt hshut hlater.symm hkept hnext

/-- A counter that would be spoilt by a lease that comes back twice.  One stream fails, one reaches
its limit, one has no rows and one is refused; then they are closed and dropped. -/
theorem useAll_accounted_wrapping :
    let release (l : Lease) (m : Memory) : Memory :=
      if l.releases ≤ m.openLeases then Memory.backend.releaseLease l m
      else { m with openLeases := 18446744073709551615 }
    let db : Database Memory :=
      ⟨{ Memory.backend with releaseLease := release }, .all, 1, 1, by decide, by decide⟩
    let sample (t : Timestamp) : Sample := ⟨t, .flag true, none⟩
    let m : Memory := { Memory.new with
      archive := Archive.empty.putAll [(1, sample 1), (1, sample 3), (2, sample 3)] }
    let query (limit : Option Int) : Query :=
      ⟨[⟨8, 2⟩, ⟨7, 1⟩], none, none, limit, .ascending⟩
    let uses : List (Use Memory.openLeases) :=
      [.openPerPoint (query none), .openCombined (query (some 1)), .openCombined (query (some 0)),
        .openPerPoint (query (some (-1))), .next 0, .next 1, .next 1, .next 2, .next 3,
        .other (fun m => { m with failingScans := 1 }) fun _ => rfl, .next 0, .next 0, .close 0,
        .close 0, .drop 0, .close 1, .drop 1, .drop 2]
    let deeds := db.useAll uses [] m
    deeds.map (fun deed => deed.left.openLeases) =
        [1, 2, 2, 2, 2, 2, 1, 1, 1, 1, 0, 0, 0, 0, 0, 0, 0, 0] ∧
      Accounted 0 deeds := by
  intro release db sample m query uses deeds
  have hb : db.backend.CountsLeases Memory.openLeases :=
    Memory.countsLeases fun l m hl => by simp only [release, hl, if_true]
  exact ⟨by decide +kernel, useAll_accounted hb uses m⟩

end Database

end Historian
