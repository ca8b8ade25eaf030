import Historian.Proofs.Queue.OnceInOrder
import Mathlib.Data.List.Nodup

/-!
# Who holds a place

Every sample in a pool holds a place in its room from its acceptance until its batch has come back.
Besides the samples only saves that wait have to do with the room: they stand in the line, or hold a
place that they have not taken up yet.

* `Room.Sound` — no room lets more tickets in than it has places, and none waits while one is free.
* `Room.Without` — what a room is like after some tickets have left it.
* `Pool.Seating` — all that one event can do to the room, the saves that wait and the samples in the
  pool.
* `Pool.Seated`, `Pool.Seated.step` — each sample in the pool holds a place, and whoever else has to
  do with the room is a save that waits.
-/

set_option autoImplicit false

namespace Historian

/-! ## Rooms -/

namespace Room

variable {r r' : Room} {t : Ticket}

/-- The tickets that hold a place, and then those that wait for one. -/
def seats (r : Room) : List Ticket := r.holders ++ r.line

theorem seats_grant (hline : r.line = []) (t : Ticket) :
    ({ r with holders := r.holders ++ [t] } : Room).seats = r.seats ++ [t] := by
  simp [seats, hline]

theorem seats_wait (r : Room) (t : Ticket) :
    ({ r with line := r.line ++ [t] } : Room).seats = r.seats ++ [t] := by
  simp [seats]

theorem nodup_seats_concat (h : r.seats.Nodup) (hnew : t ∉ r.seats) : (r.seats ++ [t]).Nodup := by
  rw [List.nodup_append]
  exact ⟨h, by simp, fun u hu v hv he => hnew (List.mem_singleton.1 hv ▸ he ▸ hu)⟩

theorem nodup_holders (h : r.seats.Nodup) : r.holders.Nodup :=
  h.sublist (List.sublist_append_left _ _)

theorem nodup_line (h : r.seats.Nodup) : r.line.Nodup :=
  h.sublist (List.sublist_append_right _ _)

/-- The room is not overfull, and is full while a ticket waits; a closed one has no line. -/
structure Sound (r : Room) : Prop where
  inUse_le : r.inUse ≤ r.capacity
  full_of_line : r.line ≠ [] → r.inUse = r.capacity
  line_of_closed : r.isOpen = false → r.line = []

theorem sound_new (capacity : Nat) (policy : Overflow) : (new capacity policy).Sound :=
  ⟨Nat.zero_le _, fun h => absurd rfl h, fun h => absurd h (by simp [new])⟩

/-- A ticket takes a free place. -/
theorem Sound.grant (h : r.Sound) (hfree : r.inUse < r.capacity) (hline : r.line = []) (t : Ticket) :
    ({ r with holders := r.holders ++ [t] } : Room).Sound where
  inUse_le := by
    rw [inUse, List.length_append]
    exact hfree
  full_of_line hne := absurd hline hne
  line_of_closed := h.line_of_closed

/-- A ticket joins the line of a room without a free place. -/
theorem Sound.wait (h : r.Sound) (hfull : ¬ (r.inUse < r.capacity ∧ r.line = []))
    (hopen : r.isOpen = true) (t : Ticket) :
    ({ r with line := r.line ++ [t] } : Room).Sound where
  inUse_le := h.inUse_le
  full_of_line _ := by
    by_cases hline : r.line = []
    · have : ¬ r.inUse < r.capacity := fun hlt => hfull ⟨hlt, hline⟩
      exact Nat.le_antisymm h.inUse_le (Nat.le_of_not_lt this)
    · exact h.full_of_line hline
  line_of_closed hclosed := absurd (hopen.symm.trans hclosed) (by simp)

/-- A ticket that leaves the line makes no room. -/
theorem Sound.cancel (h : r.Sound) (t : Ticket) : (r.cancel t).1.Sound where
  inUse_le := h.inUse_le
  full_of_line hne := h.full_of_line fun hnil => hne (by simp [Room.cancel, hnil])
  line_of_closed hclosed := by simp [Room.cancel, h.line_of_closed hclosed]

theorem Sound.close (h : r.Sound) : r.close.1.Sound :=
  ⟨h.inUse_le, fun hne => absurd rfl hne, fun _ => rfl⟩

/-- A ticket is turned away, takes a free place, or waits because there is none. -/
theorem request_cases (r : Room) (t : Ticket) :
    (∃ answer, answer ≠ .granted ∧ r.request t = (r, [(t, answer)])) ∨
    (r.inUse < r.capacity ∧ r.line = [] ∧
      r.request t = ({ r with holders := r.holders ++ [t] }, [(t, .granted)])) ∨
    (¬ (r.inUse < r.capacity ∧ r.line = []) ∧ r.isOpen = true ∧
      r.request t = ({ r with line := r.line ++ [t] }, [])) := by
  rw [request]
  by_cases hopen : r.isOpen = true
  · by_cases hfree : r.inUse < r.capacity ∧ r.line = []
    · exact .inr (.inl ⟨hfree.1, hfree.2, by simp [hopen, hfree]⟩)
    · cases hpolicy : r.policy with
      | block => exact .inr (.inr ⟨hfree, hopen, by simp [hopen, hfree]⟩)
      | reject => exact .inl ⟨.refused (.queueFull r.capacity), by simp, by simp [hopen, hfree]⟩
      | dropNewest => exact .inl ⟨.dropped, by simp, by simp [hopen, hfree]⟩
  · exact .inl ⟨.refused .queueClosed, by simp, by simp [hopen]⟩

/-- Serving the line puts nobody out, and lets nobody in who has not been there. -/
theorem seats_serve (r : Room) : r.serve.1.seats = r.seats := by
  unfold serve
  split
  · rw [seats, seats, List.append_assoc, List.take_append_drop]
  · rfl

theorem mem_holders_serve (h : t ∈ r.holders) : t ∈ r.serve.1.holders := by
  unfold serve
  split
  · exact List.mem_append_left _ h
  · exact h

@[simp] theorem isOpen_serve (r : Room) : r.serve.1.isOpen = r.isOpen := by
  unfold serve
  split <;> rfl

@[simp] theorem capacity_serve (r : Room) : r.serve.1.capacity = r.capacity := by
  unfold serve
  split <;> rfl

/-- Serving leaves nobody waiting while a place is free. -/
theorem sound_serve (hle : r.inUse ≤ r.capacity) (hclosed : r.isOpen = false → r.line = []) :
    r.serve.1.Sound := by
  rw [inUse] at hle
  unfold serve
  split
  · rename_i hopen
    have hlength := List.length_take_le (r.capacity - r.inUse) r.line
    rw [inUse] at hlength
    refine ⟨?_, fun hne => ?_, fun hclosed => absurd (hopen.symm.trans hclosed) (by simp)⟩
    · simp only [inUse, List.length_append]
      omega
    · have hlong : r.capacity - r.inUse < r.line.length := by
        simpa using hne
      rw [inUse] at hlong
      simp only [inUse, List.length_append, List.length_take]
      omega
  · rename_i hopen
    exact ⟨hle, fun hne => absurd (hclosed (by simpa using hopen)) hne, hclosed⟩

/-- The room `r'` is `r` after the tickets `ts` have left it; places that became free may have been
granted. -/
structure Without (r r' : Room) (ts : List Ticket) : Prop where
  sound : r'.Sound
  capacity_eq : r'.capacity = r.capacity
  isOpen_eq : r'.isOpen = r.isOpen
  nodup : r'.seats.Nodup
  mem_seats : ∀ t, t ∈ r'.seats ↔ t ∈ r.seats ∧ t ∉ ts
  mem_holders : ∀ t, t ∈ r.holders → t ∉ ts → t ∈ r'.holders

theorem Without.refl (h : r.Sound) (hnodup : r.seats.Nodup) : r.Without r [] where
  sound := h
  capacity_eq := rfl
  isOpen_eq := rfl
  nodup := hnodup
  mem_seats t := by simp
  mem_holders _ ht _ := ht

theorem Without.trans {r'' : Room} {ts us : List Ticket} (h : r.Without r' ts)
    (h' : r'.Without r'' us) : r.Without r'' (ts ++ us) where
  sound := h'.sound
  capacity_eq := h'.capacity_eq.trans h.capacity_eq
  isOpen_eq := h'.isOpen_eq.trans h.isOpen_eq
  nodup := h'.nodup
  mem_seats t := by
    rw [h'.mem_seats, h.mem_seats, List.mem_append, not_or, and_assoc]
  mem_holders t ht hnot := by
    rw [List.mem_append, not_or] at hnot
    exact h'.mem_holders t (h.mem_holders t ht hnot.1) hnot.2

/-- A holder gives its place back. -/
theorem without_release (h : r.Sound) (hnodup : r.seats.Nodup) (ht : t ∈ r.holders) :
    r.Without (r.release t).1 [t] := by
  have hseats : (r.release t).1.seats = r.seats.erase t := by
    rw [release, seats_serve, seats, seats, List.erase_append_left _ ht]
  have hle : (r.holders.erase t).length ≤ r.capacity :=
    Nat.le_trans List.length_erase_le h.inUse_le
  constructor
  · exact sound_serve hle h.line_of_closed
  · rw [release, capacity_serve]
  · rw [release, isOpen_serve]
  · exact hseats ▸ hnodup.erase t
  · intro u
    rw [hseats, hnodup.mem_erase_iff, List.mem_singleton, and_comm]
  · intro u hu hne
    refine mem_holders_serve ?_
    exact (List.mem_erase_of_ne (by simpa using hne)).2 hu

/-- A ticket without a place leaves the line. -/
theorem without_cancel (h : r.Sound) (hnodup : r.seats.Nodup) (ht : t ∉ r.holders) :
    r.Without (r.cancel t).1 [t] := by
  have hseats : (r.cancel t).1.seats = r.seats.erase t := by
    rw [seats, seats, List.erase_append_right _ ht]
    rfl
  constructor
  · exact h.cancel t
  · rfl
  · rfl
  · exact hseats ▸ hnodup.erase t
  · intro u
    rw [hseats, hnodup.mem_erase_iff, List.mem_singleton, and_comm]
  · exact fun u hu _ => hu

/-- Running events is taking one step after the other. -/
theorem run_fst (r : Room) (events : List Event) :
    (r.run events).1 = events.foldl (fun r e => (r.step e).1) r := by
  have hfold : ∀ acc : Room × List (Ticket × RoomAnswer),
      (events.foldl (fun acc e => ((acc.1.step e).1, acc.2 ++ (acc.1.step e).2)) acc).1 =
        events.foldl (fun r e => (r.step e).1) acc.1 := by
    induction events with
    | nil => exact fun _ => rfl
    | cons e rest ih => exact fun acc => ih _
  exact hfold (r, [])

/-- Holders give their places back one after the other. -/
theorem without_releases {ts : List Ticket} :
    ∀ {r : Room}, r.Sound → r.seats.Nodup → (∀ t ∈ ts, t ∈ r.holders) → ts.Nodup →
      r.Without (r.run (ts.map .release)).1 ts := by
  simp only [run_fst]
  induction ts with
  | nil => exact fun h hnodup _ _ => .refl h hnodup
  | cons t rest ih =>
    intro r h hnodup hheld hts
    obtain ⟨ht, hrest⟩ := List.nodup_cons.1 hts
    have hfirst := without_release h hnodup (hheld t List.mem_cons_self)
    have hheld' : ∀ u ∈ rest, u ∈ (r.release t).1.holders := fun u hu =>
      hfirst.mem_holders u (hheld u (List.mem_cons_of_mem _ hu)) (by
        rw [List.mem_singleton]
        exact fun he => ht (he ▸ hu))
    exact hfirst.trans (ih hfirst.sound hfirst.nodup hheld' hrest)

/-- Those `inside` hold places, and everybody else who has to do with the room is `waiting`. -/
structure Fits (r : Room) (inside waiting : List Ticket) : Prop where
  sound : r.Sound
  nodup : r.seats.Nodup
  held : ∀ t ∈ inside, t ∈ r.holders
  mem_seats : ∀ t ∈ r.seats, t ∈ inside ∨ t ∈ waiting
  /-- As long as the room is open, those that wait stand in the line or have been let in. -/
  waiting_mem : r.isOpen = true → ∀ t ∈ waiting, t ∈ r.seats

namespace Fits

variable {inside inside' waiting : List Ticket}

theorem congr (h : r.Fits inside waiting) (hsame : inside'.Perm inside) : r.Fits inside' waiting where
  sound := h.sound
  nodup := h.nodup
  held t ht := h.held t (hsame.mem_iff.1 ht)
  mem_seats t ht := (h.mem_seats t ht).imp_left hsame.mem_iff.2
  waiting_mem := h.waiting_mem

theorem grant (h : r.Fits inside waiting) (hfree : r.inUse < r.capacity) (hline : r.line = [])
    (hnew : t ∉ r.seats) :
    ({ r with holders := r.holders ++ [t] } : Room).Fits (t :: inside) waiting := by
  have hseats := seats_grant hline t
  refine ⟨h.sound.grant hfree hline t, ?_, fun u hu => ?_, fun u hu => ?_, fun hopen u hu => ?_⟩
  · rw [hseats]
    exact nodup_seats_concat h.nodup hnew
  · rcases List.mem_cons.1 hu with rfl | hu
    · simp
    · exact List.mem_append_left _ (h.held u hu)
  · rw [hseats, List.mem_append, List.mem_singleton] at hu
    rcases hu with hu | rfl
    · exact (h.mem_seats u hu).imp_left (List.mem_cons_of_mem _)
    · exact .inl List.mem_cons_self
  · rw [hseats]
    exact List.mem_append_left _ (h.waiting_mem hopen u hu)

theorem wait (h : r.Fits inside waiting) (hfull : ¬ (r.inUse < r.capacity ∧ r.line = []))
    (hopen : r.isOpen = true) (hnew : t ∉ r.seats) :
    ({ r with line := r.line ++ [t] } : Room).Fits inside (waiting ++ [t]) := by
  have hseats := r.seats_wait t
  refine ⟨h.sound.wait hfull hopen t, ?_, h.held, fun u hu => ?_, fun _ u hu => ?_⟩
  · rw [hseats]
    exact nodup_seats_concat h.nodup hnew
  · rw [hseats, List.mem_append] at hu
    rw [List.mem_append]
    rcases hu with hu | hu
    · exact (h.mem_seats u hu).imp_right .inl
    · exact .inr (.inr hu)
  · rw [hseats]
    rw [List.mem_append] at hu ⊢
    exact hu.imp_left (h.waiting_mem hopen u)

/-- One who has been let in takes up its place. -/
theorem takeUp (h : r.Fits inside waiting) (hheld : t ∈ r.holders) :
    r.Fits (t :: inside) (waiting.filter (· != t)) := by
  refine ⟨h.sound, h.nodup, fun u hu => ?_, fun u hu => ?_, fun hopen u hu => ?_⟩
  · rcases List.mem_cons.1 hu with rfl | hu
    · exact hheld
    · exact h.held u hu
  · by_cases he : u = t
    · exact .inl (he ▸ List.mem_cons_self)
    · refine (h.mem_seats u hu).imp (List.mem_cons_of_mem _) fun hu => ?_
      exact List.mem_filter.2 ⟨hu, by simpa using he⟩
  · exact h.waiting_mem hopen u (List.mem_filter.1 hu).1

/-- One who waits goes away. -/
theorem leave (h : r.Fits inside waiting) (hleft : r.Without r' [t]) (ht : t ∉ inside) :
    r'.Fits inside (waiting.filter (· != t)) := by
  refine ⟨hleft.sound, hleft.nodup, fun u hu => ?_, fun u hu => ?_, fun hopen u hu => ?_⟩
  · refine hleft.mem_holders u (h.held u hu) ?_
    rw [List.mem_singleton]
    exact fun he => ht (he ▸ hu)
  · rw [hleft.mem_seats, List.mem_singleton] at hu
    refine (h.mem_seats u hu.1).imp_right fun hw => ?_
    exact List.mem_filter.2 ⟨hw, by simpa using hu.2⟩
  · rw [List.mem_filter, bne_iff_ne] at hu
    rw [hleft.mem_seats, List.mem_singleton]
    exact ⟨h.waiting_mem (hleft.isOpen_eq ▸ hopen) u hu.1, hu.2⟩

/-- Some of those inside go away. -/
theorem free {ts : List Ticket} (h : r.Fits (ts ++ inside) waiting) (hleft : r.Without r' ts)
    (hnodup : (ts ++ inside).Nodup) (hwaiting : ∀ t ∈ ts, t ∉ waiting) : r'.Fits inside waiting := by
  rw [List.nodup_append] at hnodup
  refine ⟨hleft.sound, hleft.nodup, fun u hu => ?_, fun u hu => ?_, fun hopen u hu => ?_⟩
  · exact hleft.mem_holders u (h.held u (List.mem_append_right _ hu))
      fun hts => hnodup.2.2 u hts u hu rfl
  · rw [hleft.mem_seats] at hu
    refine (h.mem_seats u hu.1).imp_left fun hin => ?_
    exact (List.mem_append.1 hin).resolve_left hu.2
  · rw [hleft.mem_seats]
    exact ⟨h.waiting_mem (hleft.isOpen_eq ▸ hopen) u hu, fun hts => hwaiting u hts hu⟩

theorem close (h : r.Fits inside waiting) : r.close.1.Fits inside waiting := by
  have hseats : r.close.1.seats = r.holders := List.append_nil _
  refine ⟨h.sound.close, ?_, h.held, fun u hu => ?_, fun hopen => by simp [Room.close] at hopen⟩
  · exact hseats ▸ nodup_holders h.nodup
  · exact h.mem_seats u (List.mem_append_left _ (hseats ▸ hu))

/-- Where everybody who has been let in has taken up the place, the places held are those of the
ones inside. -/
theorem inUse_eq (h : r.Fits inside waiting) (hinside : inside.Nodup)
    (htaken : ∀ t ∈ waiting, t ∉ r.holders) : r.inUse = inside.length := by
  have hnodup : r.holders.Nodup := nodup_holders h.nodup
  have hperm : r.holders.Perm inside := by
    rw [List.perm_ext_iff_of_nodup hnodup hinside]
    refine fun t => ⟨fun ht => ?_, h.held t⟩
    exact (h.mem_seats t (List.mem_append_left _ ht)).resolve_right fun hw => htaken t hw ht
  exact hperm.length_eq

end Fits

end Room

namespace Pool

variable {p q : Pool}

/-! ## What is in a pool -/

/-- The samples in the hands of workers or at the backend. -/
def inHand (p : Pool) : List Item := p.workers.flatMap Worker.load

/-- Whether the call wants a sample saved. -/
def Call.saves (c : Call) : Bool :=
  match c.request with
  | .save .. => true
  | _ => false

theorem exists_of_saves {c : Call} (h : c.saves = true) :
    ∃ series sample, c.request = .save series sample := by
  rw [Call.saves] at h
  split at h
  · exact ⟨_, _, ‹_›⟩
  · cases h

/-- The saves that wait. -/
def saving (p : Pool) : List Ticket := (p.waiting.filter Call.saves).map Call.number

theorem length_inHand (p : Pool) : (inHand p).length = inHands p.workers := by
  rw [inHand]
  induction p.workers with
  | nil => rfl
  | cons w rest ih => rw [List.flatMap_cons, List.length_append, ih, inHands]

theorem mem_saving {t : Ticket} :
    t ∈ saving p ↔ ∃ c ∈ p.waiting, c.saves = true ∧ c.number = t := by
  simp [saving, and_assoc]

/-- Replacing a worker replaces its samples. -/
theorem load_set_perm {workers : List Worker} {i : Nat} {w : Worker} (hw : workers[i]? = some w)
    (w' : Worker) :
    (w.load ++ (workers.set i w').flatMap Worker.load).Perm
      (w'.load ++ workers.flatMap Worker.load) := by
  induction workers generalizing i with
  | nil => simp at hw
  | cons v rest ih =>
    cases i with
    | zero =>
      obtain rfl : v = w := by simpa using hw
      rw [List.set_cons_zero, List.flatMap_cons, List.flatMap_cons, ← List.append_assoc,
        ← List.append_assoc]
      exact List.perm_append_comm.append_right _
    | succ i =>
      have ih := ih (i := i) (by simpa using hw)
      rw [List.set_cons_succ, List.flatMap_cons, List.flatMap_cons]
      exact (List.perm_append_comm_assoc ..).trans
        ((ih.append_left v.load).trans (List.perm_append_comm_assoc ..))

/-- A worker that sees its samples through in another state still has them. -/
theorem inHand_set {i : Nat} {w w' : Worker} (hw : p.workers[i]? = some w)
    (hworkers : q.workers = p.workers.set i w') (hload : w'.load = w.load) :
    (inHand q).Perm (inHand p) := by
  have hperm := load_set_perm hw w'
  rw [hload, List.perm_append_left_iff] at hperm
  rwa [inHand, inHand, hworkers]

/-- A sample that joins the queue of a worker is in its hands. -/
theorem inHand_enqueue {i : Nat} (hi : i < p.workers.length) {x : Item}
    (hworkers : q.workers = p.workers.modify i (Worker.enqueue x)) :
    (inHand q).Perm (x :: inHand p) := by
  have hw : p.workers[i]? = some p.workers[i] := List.getElem?_eq_getElem hi
  have hperm := load_set_perm hw (p.workers[i].enqueue x)
  have hload : (p.workers[i].enqueue x).load = p.workers[i].load ++ [x] := by
    simp [Worker.load_eq]
  rw [hload, List.append_assoc, List.perm_append_left_iff] at hperm
  rw [inHand, inHand, hworkers, modify_enqueue hi]
  exact hperm

/-- A batch that comes back is in nobody's hands any more. -/
theorem inHand_return {i : Nat} {w w' : Worker} {batch : List Item} (hw : p.workers[i]? = some w)
    (hworkers : q.workers = p.workers.set i w') (hload : w.load = batch ++ w'.load) :
    (inHand p).Perm (batch ++ inHand q) := by
  have hperm := load_set_perm hw w'
  rw [hload, List.append_assoc] at hperm
  have hperm := (List.perm_append_comm_assoc batch w'.load _).symm.trans hperm
  rw [List.perm_append_left_iff] at hperm
  rw [inHand, inHand, hworkers]
  exact hperm.symm

/-! ## What an event does to the room -/

/-- The moves of the room: what one event does to it, to the saves that wait and to the samples in
the pool. -/
inductive Seating (p q : Pool) : Prop
  /-- The room is left alone. -/
  | keep (hroom : q.room = p.room) (hsaving : saving q = saving p)
      (hhand : (inHand q).Perm (inHand p))
  /-- A new sample takes a free place. -/
  | grant (x : Item) (hx : x.ticket = p.calls) (hfree : p.room.inUse < p.room.capacity)
      (hline : p.room.line = [])
      (hroom : q.room = { p.room with holders := p.room.holders ++ [p.calls] })
      (hsaving : saving q = saving p) (hhand : (inHand q).Perm (x :: inHand p))
  /-- A new save joins the line. -/
  | wait (hfull : ¬ (p.room.inUse < p.room.capacity ∧ p.room.line = []))
      (hopen : p.room.isOpen = true)
      (hroom : q.room = { p.room with line := p.room.line ++ [p.calls] })
      (hsaving : saving q = saving p ++ [p.calls]) (hhand : (inHand q).Perm (inHand p))
  /-- A save that waits finds its place granted. -/
  | takeUp (x : Item) (hx : x.ticket ∈ saving p) (hheld : x.ticket ∈ p.room.holders)
      (hroom : q.room = p.room) (hsaving : saving q = (saving p).filter (· != x.ticket))
      (hhand : (inHand q).Perm (x :: inHand p))
  /-- A save that waits gives up. -/
  | leave (t : Ticket) (ht : t ∈ saving p) (hroom : q.room = (p.leaveRoom t).room)
      (hsaving : saving q = (saving p).filter (· != t)) (hhand : (inHand q).Perm (inHand p))
  /-- The room is closed. -/
  | close (hroom : q.room = p.room.close.1) (hsaving : saving q = saving p)
      (hhand : (inHand q).Perm (inHand p))
  /-- The samples of a batch leave. -/
  | free (batch : List Item)
      (hroom : q.room = (p.room.run ((batch.map Item.ticket).map .release)).1)
      (hsaving : saving q = saving p) (hhand : (inHand p).Perm (batch ++ inHand q))

theorem saving_filter {t : Ticket} (hwaiting : q.waiting = p.waiting.filter fun c => c.number != t) :
    saving q = (saving p).filter (· != t) := by
  rw [saving, saving, hwaiting, List.filter_map, List.filter_filter, List.filter_filter]
  exact congrArg _ (List.filter_congr fun c _ => Bool.and_comm ..)

/-- A call that is no save leaves the saves waiting. -/
theorem saving_filter_other {requests : List Request} {effects : List Effect}
    (h : CallsFollow p requests effects) {c : Call} (hc : c ∈ p.waiting) (hother : c.saves = false)
    (hwaiting : q.waiting = p.waiting.filter fun d => d.number != c.number) :
    saving q = saving p := by
  rw [saving_filter hwaiting, List.filter_eq_self]
  intro t ht
  obtain ⟨d, hd, hsaves, rfl⟩ := mem_saving.1 ht
  simp only [bne_iff_ne]
  intro he
  rw [List.inj_on_of_nodup_map h.waiting_nodup hd hc he, hother] at hsaves
  cases hsaves

theorem call_seating (hlength : p.workers.length = p.settings.workers) (request : Request) :
    Seating p (p.call request).1 := by
  cases request with
  | save series sample =>
    have hi : p.workerOf series < p.workers.length :=
      hlength ▸ Nat.mod_lt _ p.valid.workers_pos
    rcases p.room.request_cases p.calls with ⟨answer, hanswer, hrequest⟩ |
      ⟨hfree, hline, hrequest⟩ | ⟨hfull, hopen, hrequest⟩
    · simp only [call, save, hrequest, List.lookup_cons_self]
      cases answer with
      | granted => exact absurd rfl hanswer
      | dropped => exact .keep rfl rfl (.refl _)
      | refused cause => exact .keep rfl rfl (.refl _)
    · simp only [call, save, hrequest, List.lookup_cons_self]
      exact .grant ⟨p.calls, series, sample⟩ rfl hfree hline rfl rfl (inHand_enqueue hi rfl)
    · simp only [call, save, hrequest, List.lookup_nil]
      refine .wait hfull hopen rfl ?_ (.refl _)
      rw [saving, park, List.filter_append, List.map_append]
      rfl
  | flush =>
    simp only [call, flush]
    split
    · exact .keep rfl rfl (.refl _)
    · refine .keep rfl ?_ (.refl _)
      simp [saving, park, Call.saves]
  | stop =>
    simp only [call, stop]
    split
    · refine .close rfl ?_ (.refl _)
      simp [saving, park, Call.saves]
    · exact .keep rfl rfl (.refl _)

/-- What is found under a number is a call that waits. -/
theorem exists_of_waitingCall? {number : Ticket} {c : Call} (h : p.waitingCall? number = some c) :
    c ∈ p.waiting ∧ c.number = number :=
  ⟨List.mem_of_find?_eq_some h, by simpa using List.find?_some h⟩

/-- A call that waits is found under its number. -/
theorem CallsFollow.waitingCall?_eq {requests : List Request} {effects : List Effect}
    (h : CallsFollow p requests effects) {c : Call} (hc : c ∈ p.waiting) :
    p.waitingCall? c.number = some c := by
  cases hfind : p.waitingCall? c.number with
  | none => exact absurd (List.find?_eq_none.1 hfind c hc) (by simp)
  | some d =>
    obtain ⟨hd, hnumber⟩ := exists_of_waitingCall? hfind
    rw [List.inj_on_of_nodup_map h.waiting_nodup hd hc hnumber]

theorem poll_seating {requests : List Request} {effects : List Effect}
    (h : Follows p requests effects) (number : Ticket) : Seating p (p.poll number).1 := by
  rw [poll]
  cases hfind : p.waitingCall? number with
  | none => exact .keep rfl rfl (.refl _)
  | some c =>
    obtain ⟨hc, rfl⟩ := exists_of_waitingCall? hfind
    simp only
    cases hrequest : c.request with
    | save series sample =>
      have hsaves : c.saves = true := by rw [Call.saves, hrequest]
      have ht : c.number ∈ saving p := mem_saving.2 ⟨c, hc, hsaves, rfl⟩
      have hi : p.workerOf series < p.workers.length :=
        h.workers_length ▸ Nat.mod_lt _ p.valid.workers_pos
      simp only
      split
      · exact .leave c.number ht rfl (saving_filter rfl) (.refl _)
      · split
        · rename_i hheld
          exact .takeUp ⟨c.number, series, sample⟩ ht (by simpa using hheld) rfl (saving_filter rfl)
            (inHand_enqueue hi rfl)
        · exact .keep rfl rfl (.refl _)
    | flush =>
      have hother : c.saves = false := by rw [Call.saves, hrequest]
      simp only
      split
      · exact .keep rfl (saving_filter_other h.toCallsFollow hc hother rfl) (.refl _)
      · exact .keep rfl rfl (.refl _)
    | stop =>
      have hother : c.saves = false := by rw [Call.saves, hrequest]
      have hleft := saving_filter_other (q := p.unpark c.number) h.toCallsFollow hc hother rfl
      simp only
      split
      · exact .keep rfl hleft (.refl _)
      · split
        · exact .keep rfl hleft (.refl _)
        · exact .keep rfl rfl (.refl _)

theorem abandon_seating {requests : List Request} {effects : List Effect}
    (h : CallsFollow p requests effects) (number : Ticket) : Seating p (p.abandon number) := by
  rw [abandon]
  cases hfind : p.waitingCall? number with
  | none => exact .keep rfl rfl (.refl _)
  | some c =>
    obtain ⟨hc, rfl⟩ := exists_of_waitingCall? hfind
    simp only
    cases hrequest : c.request with
    | save series sample =>
      have hsaves : c.saves = true := by rw [Call.saves, hrequest]
      exact .leave c.number (mem_saving.2 ⟨c, hc, hsaves, rfl⟩) rfl (saving_filter rfl) (.refl _)
    | flush =>
      have hother : c.saves = false := by rw [Call.saves, hrequest]
      exact .keep rfl (saving_filter_other h hc hother rfl) (.refl _)
    | stop =>
      have hother : c.saves = false := by rw [Call.saves, hrequest]
      exact .keep rfl (saving_filter_other h hc hother rfl) (.refl _)

/-- Filling a batch and handing it over leaves its samples in the pool. -/
theorem gather_seating {i : Nat} {w : Worker} (hw : p.workers[i]? = some w)
    {queue batch : List Item} (hload : w.load = batch ++ queue) (deadline : Nat) :
    Seating p (p.gather i queue batch deadline).1 := by
  have hsplit := List.take_append_drop (p.settings.maxBatch - batch.length) queue
  simp only [gather]
  split
  · refine .keep rfl rfl (inHand_set hw rfl ?_)
    rw [hload, Worker.load, Worker.batch, List.append_assoc, hsplit]
  · refine .keep rfl rfl (inHand_set hw rfl ?_)
    rw [hload, Worker.load, Worker.batch, List.append_assoc, hsplit]

theorem work_seating (i : Nat) : Seating p (p.work i).1 := by
  rw [work]
  cases hw : p.workers[i]? with
  | none => exact .keep rfl rfl (.refl _)
  | some w =>
    obtain ⟨queue, activity⟩ := w
    cases activity with
    | idle =>
      cases queue with
      | nil => exact .keep rfl rfl (.refl _)
      | cons x rest =>
        have hload : Worker.load ⟨x :: rest, .idle⟩ = [x] ++ rest := rfl
        exact gather_seating hw hload _
    | gathering batch deadline =>
      have hload : Worker.load ⟨queue, .gathering batch deadline⟩ = batch ++ queue := rfl
      exact gather_seating hw hload _
    | writing batch turn => exact .keep rfl rfl (.refl _)

theorem finish_seating (i : Nat) (stored : Bool) : Seating p (p.finish i stored).1 := by
  rw [finish]
  cases hw : p.workers[i]? with
  | none => exact .keep rfl rfl (.refl _)
  | some w =>
    obtain ⟨queue, activity⟩ := w
    cases activity with
    | idle => exact .keep rfl rfl (.refl _)
    | gathering => exact .keep rfl rfl (.refl _)
    | writing batch turn =>
      refine .free batch ?_ rfl (inHand_return hw rfl rfl)
      rw [List.map_map]
      rfl

/-- Every event is such a move. -/
theorem step_seating {requests : List Request} {effects : List Effect}
    (h : Follows p requests effects) (e : Event) : Seating p (p.step e).1 := by
  cases e with
  | call request => exact call_seating h.workers_length request
  | poll number => exact poll_seating h number
  | abandon number => exact abandon_seating h.toCallsFollow number
  | work i => exact work_seating i
  | finish i stored => exact finish_seating i stored
  | advance time => exact .keep rfl rfl (.refl _)

/-! ## Runs -/

/-- The samples that have come back, in order. -/
def returnedItems (effects : List Effect) : List Item := (returned effects).flatMap (·.2.1)

theorem returnedItems_append (xs ys : List Effect) :
    returnedItems (xs ++ ys) = returnedItems xs ++ returnedItems ys := by
  rw [returnedItems, returned_append, List.flatMap_append, returnedItems, returnedItems]

/-- A pool whose room fits its history: what has been accepted has come back or is in the pool, where
each sample holds a place, and else only saves that wait have to do with the room. -/
structure Seated (p : Pool) (requests : List Request) (effects : List Effect) : Prop extends
    Follows p requests effects where
  accepted_perm : (accepted requests effects).Perm (returnedItems effects ++ inHand p)
  capacity_eq : p.room.capacity = p.settings.capacity
  fits : p.room.Fits ((inHand p).map Item.ticket) (saving p)

/-- Every move keeps what has been accepted together. -/
theorem accepted_perm_move {made : List Request} {fx : List Effect} {requests : List Request}
    {effects : List Effect} (h : Follows p requests effects)
    (hperm : (accepted requests effects).Perm (returnedItems effects ++ inHand p))
    (hmove : Move p q made fx) :
    (accepted (requests ++ made) (effects ++ fx)).Perm
      (returnedItems (effects ++ fx) ++ inHand q) := by
  obtain ⟨taken, htaken, hhandling⟩ := h.handling hmove
  -- whatever is accepted joins what is in hand, and what comes back leaves it
  suffices hhand : (taken ++ inHand p).Perm (returnedItems fx ++ inHand q) by
    rw [h.accepted_append, htaken, returnedItems_append, List.append_assoc]
    refine List.perm_append_comm.trans ((hperm.append_left taken).trans ?_)
    exact (List.perm_append_comm_assoc _ _ _).trans (hhand.append_left _)
  cases hhandling with
  | quiet hworkers =>
    rw [inHand, inHand, hworkers]
    exact .refl _
  | refuse _ _ _ hworkers =>
    rw [inHand, inHand, hworkers]
    exact .refl _
  | take x hworkers =>
    have hof : p.workerOf x.series < p.workers.length :=
      h.workers_length ▸ Nat.mod_lt _ p.valid.workers_pos
    exact (inHand_enqueue hof hworkers).symm
  | gather i w w' hw hout hout' hheld hworkers =>
    refine (inHand_set hw hworkers ?_).symm
    rw [Worker.load_eq, Worker.load_eq, hout, hout', hheld]
  | handOver i w w' batch hw hout hout' hheld hworkers =>
    refine (inHand_set hw hworkers ?_).symm
    simp [Worker.load_eq, hout, hout', hheld]
  | takeBack i w w' batch stored hw hout hout' hheld hworkers =>
    have hback : returnedItems [.returned i batch stored] = batch := List.append_nil batch
    rw [hback]
    refine inHand_return hw hworkers ?_
    simp [Worker.load_eq, hout, hout', hheld]

namespace Seated

variable {requests : List Request} {effects : List Effect}

/-- No sample is in the pool twice. -/
theorem nodup_inHand (h : Seated p requests effects) : ((inHand p).map Item.ticket).Nodup := by
  have hperm := h.accepted_perm.map Item.ticket
  rw [List.map_append] at hperm
  exact ((hperm.nodup_iff.1 h.tickets_nodup).sublist (List.sublist_append_right _ _))

/-- The call of a sample in the pool has been answered. -/
theorem answered_of_inHand (h : Seated p requests effects) {t : Ticket}
    (ht : t ∈ (inHand p).map Item.ticket) : t ∈ answered effects := by
  have hperm := h.accepted_perm.map Item.ticket
  rw [List.map_append] at hperm
  exact (tickets_sublist requests effects).subset
    (hperm.mem_iff.2 (List.mem_append_right _ ht))

theorem number_of_saving {t : Ticket} (ht : t ∈ saving p) : t ∈ p.waiting.map Call.number := by
  obtain ⟨c, hc, -, rfl⟩ := mem_saving.1 ht
  exact List.mem_map_of_mem hc

/-- A save that waits has no sample in the pool. -/
theorem not_inHand_of_saving (h : Seated p requests effects) {t : Ticket} (ht : t ∈ saving p) :
    t ∉ (inHand p).map Item.ticket := fun hin =>
  h.answered_not_waiting t (h.answered_of_inHand hin) (number_of_saving ht)

/-- The next call has nothing to do with the room yet. -/
theorem calls_not_seated (h : Seated p requests effects) : p.calls ∉ p.room.seats := by
  intro hseat
  refine absurd ?_ (Nat.lt_irrefl p.calls)
  rcases h.fits.mem_seats _ hseat with hin | hwaits
  · exact h.calls_eq ▸ h.answered_lt _ (h.calls_eq ▸ h.answered_of_inHand hin)
  · exact h.calls_eq ▸ h.waiting_lt (h.calls_eq ▸ number_of_saving hwaits)

theorem without_leaveRoom (h : Seated p requests effects) (t : Ticket) :
    p.room.Without (p.leaveRoom t).room [t] := by
  rw [leaveRoom]
  by_cases hheld : t ∈ p.room.holders
  · simp only [List.contains_iff_mem, hheld, if_true]
    exact Room.without_release h.fits.sound h.fits.nodup hheld
  · simp only [List.contains_iff_mem, hheld, if_false]
    exact Room.without_cancel h.fits.sound h.fits.nodup hheld

theorem without_batch (h : Seated p requests effects) {batch rest : List Item}
    (hhand : (inHand p).Perm (batch ++ rest)) :
    p.room.Without (p.room.run ((batch.map Item.ticket).map .release)).1
      (batch.map Item.ticket) := by
  have hperm := hhand.map Item.ticket
  rw [List.map_append] at hperm
  refine Room.without_releases h.fits.sound h.fits.nodup (fun t ht => ?_) ?_
  · exact h.fits.held t (hperm.mem_iff.2 (List.mem_append_left _ ht))
  · exact (hperm.nodup_iff.1 h.nodup_inHand).sublist (List.sublist_append_left _ _)

/-- Every move of the room keeps it fitting. -/
theorem seating (h : Seated p requests effects) (hsettings : q.settings = p.settings)
    (hseating : Seating p q) :
    q.room.capacity = q.settings.capacity ∧
      q.room.Fits ((inHand q).map Item.ticket) (saving q) := by
  rw [hsettings, ← h.capacity_eq]
  cases hseating with
  | keep hroom hsaving hhand =>
    rw [hroom, hsaving]
    exact ⟨rfl, h.fits.congr (hhand.map _)⟩
  | grant x hx hfree hline hroom hsaving hhand =>
    rw [hroom, hsaving]
    refine ⟨rfl, (h.fits.grant hfree hline h.calls_not_seated).congr ?_⟩
    rw [← hx]
    exact hhand.map _
  | wait hfull hopen hroom hsaving hhand =>
    rw [hroom, hsaving]
    exact ⟨rfl, (h.fits.wait hfull hopen h.calls_not_seated).congr (hhand.map _)⟩
  | takeUp x _ hheld hroom hsaving hhand =>
    rw [hroom, hsaving]
    exact ⟨rfl, (h.fits.takeUp hheld).congr (hhand.map _)⟩
  | leave t ht hroom hsaving hhand =>
    have hleft := h.without_leaveRoom t
    rw [hroom, hsaving]
    refine ⟨hleft.capacity_eq, ?_⟩
    exact (h.fits.leave hleft (h.not_inHand_of_saving ht)).congr (hhand.map _)
  | close hroom hsaving hhand =>
    rw [hroom, hsaving]
    exact ⟨rfl, h.fits.close.congr (hhand.map _)⟩
  | free batch hroom hsaving hhand =>
    have hleft := h.without_batch hhand
    have hperm := hhand.map Item.ticket
    rw [List.map_append] at hperm
    rw [hroom, hsaving]
    refine ⟨hleft.capacity_eq, ?_⟩
    refine (h.fits.congr hperm.symm).free hleft (hperm.nodup_iff.1 h.nodup_inHand) fun t ht hw => ?_
    exact h.not_inHand_of_saving hw (hperm.mem_iff.2 (List.mem_append_left _ ht))

/-- Every event keeps the room in step with the history. -/
theorem step (h : Seated p requests effects) (e : Event) :
    Seated (p.step e).1 (requests ++ e.made) (effects ++ (p.step e).2) where
  toFollows := h.toFollows.step e
  accepted_perm := accepted_perm_move h.toFollows h.accepted_perm (step_move p e)
  capacity_eq := (h.seating (step_settings p e) (step_seating h.toFollows e)).1
  fits := (h.seating (step_settings p e) (step_seating h.toFollows e)).2

/-- So does every run. -/
theorem run {earlier : List Request} (h : Seated p earlier effects) (events : List Event) :
    Seated (p.run events).1 (earlier ++ Pool.requests events) (effects ++ (p.run events).2) := by
  induction events generalizing p earlier effects with
  | nil => simpa [Pool.run, Pool.requests] using h
  | cons e rest ih => simpa [Pool.run, Pool.requests, List.append_assoc] using ih (h.step e)

end Seated

theorem inHand_start (settings : WriterSettings) (valid : settings.Valid) (tick now : Nat) :
    inHand (start settings valid tick now) = [] := by
  rw [← List.length_eq_zero_iff, length_inHand]
  exact inHands_fresh _

/-- A pool at rest has an empty room. -/
theorem start_seated (settings : WriterSettings) (valid : settings.Valid) (tick now : Nat) :
    Seated (start settings valid tick now) [] [] where
  toFollows := start_follows settings valid tick now
  accepted_perm := by
    rw [inHand_start]
    exact .refl _
  capacity_eq := rfl
  fits := by
    rw [inHand_start]
    exact ⟨Room.sound_new _ _, List.nodup_nil, by simp, by simp [start, Room.new, Room.seats],
      by simp [saving, start]⟩

theorem run_seated (settings : WriterSettings) (valid : settings.Valid) (tick now : Nat)
    (events : List Event) :
    Seated ((start settings valid tick now).run events).1 (requests events)
      ((start settings valid tick now).run events).2 := by
  simpa using (start_seated settings valid tick now).run events

end Pool

end Historian
