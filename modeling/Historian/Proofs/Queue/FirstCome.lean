import Historian.Proofs.Queue.Outcomes
import Mathlib.Data.Set.Card

/-!
# First come, first served

What a room has done is told by its log, event by event with the answers.  From the log alone it can
be said who holds a place and who waits for one, and that is all that the room goes by.

## Protocol

* A ticket *holds* a place from the moment of its grant to its next release.
* A ticket *waits* from its request until it is answered or cancelled.
* Every ticket is for one request.

## Results

* `Room.Moves`, `Room.moves_step` — all that one event can do, said once.
* `Room.Tracks.next`, `Room.tracks_log` — the log and the room agree after each event, and so at the
  end of every run.
* `Room.run_orderly` — the places in use are counted exactly, a ticket waits only for want of them,
  nobody is overtaken, and a closed room turns everybody away.
-/

set_option autoImplicit false

namespace Historian.Room

/-- An event with the answers that it has brought about. -/
abbrev Moment := Event × List (Ticket × RoomAnswer)

/-- What happens moment by moment. -/
def log (r : Room) : List Event → List Moment
  | [] => []
  | e :: rest => (e, (r.step e).2) :: log (r.step e).1 rest

/-- The ticket that an event asks a place for. -/
def Event.asks : Event → Option Ticket
  | request t => some t
  | _ => none

/-- The tickets asked for, in order. -/
def asked (log : List Moment) : List Ticket := log.filterMap fun m => m.1.asks

/-- At some moment `P` has been the case, and at every later one `Q`. -/
def Since (P Q : Moment → Prop) (log : List Moment) : Prop :=
  ∃ before m later, log = before ++ m :: later ∧ P m ∧ ∀ l ∈ later, Q l

/-- The ticket has been granted a place and not released since. -/
def Holds (log : List Moment) (t : Ticket) : Prop :=
  Since (fun m => (t, .granted) ∈ m.2) (fun m => m.1 ≠ .release t) log

/-- The ticket has been asked for and not cancelled since, and nothing has answered it. -/
def Waits (log : List Moment) (t : Ticket) : Prop :=
  Since (fun m => m.1 = .request t) (fun m => m.1 ≠ .cancel t) log ∧
    ∀ m ∈ log, ∀ answer, (t, answer) ∉ m.2

/-- Nobody has closed the room. -/
def Open (log : List Moment) : Prop := ∀ m ∈ log, m.1 ≠ .close

/-! ## Logs -/

section Logs

variable {log : List Moment} {m : Moment} {t u : Ticket}

theorem since_concat {P Q : Moment → Prop} :
    Since P Q (log ++ [m]) ↔ P m ∨ Since P Q log ∧ Q m := by
  constructor
  · rintro ⟨before, n, later, hsplit, hn, hlater⟩
    rcases List.eq_nil_or_concat later with rfl | ⟨later, l, rfl⟩
    · obtain ⟨-, hm⟩ := List.append_inj' hsplit rfl
      obtain rfl := List.singleton_inj.1 hm
      exact .inl hn
    · rw [List.concat_eq_append, ← List.cons_append, ← List.append_assoc] at hsplit
      obtain ⟨rfl, hm⟩ := List.append_inj' hsplit rfl
      obtain rfl := List.singleton_inj.1 hm
      exact .inr ⟨⟨before, n, later, rfl, hn, fun l hl => hlater l (by simp [hl])⟩,
        hlater m (by simp)⟩
  · rintro (hm | ⟨⟨before, n, later, rfl, hn, hlater⟩, hm⟩)
    · exact ⟨log, m, [], rfl, hm, by simp⟩
    · refine ⟨before, n, later ++ [m], by simp, hn, fun l hl => ?_⟩
      rcases List.mem_append.1 hl with hl | hl
      · exact hlater l hl
      · exact List.mem_singleton.1 hl ▸ hm

theorem holds_concat :
    Holds (log ++ [m]) t ↔ (t, .granted) ∈ m.2 ∨ Holds log t ∧ m.1 ≠ .release t := since_concat

theorem waits_concat :
    Waits (log ++ [m]) t ↔ (∀ answer, (t, answer) ∉ m.2) ∧
      (m.1 = .request t ∧ (∀ n ∈ log, ∀ answer, (t, answer) ∉ n.2) ∨
        Waits log t ∧ m.1 ≠ .cancel t) := by
  rw [Waits, since_concat, List.forall_mem_append, List.forall_mem_singleton, Waits]
  tauto

theorem open_concat : Open (log ++ [m]) ↔ Open log ∧ m.1 ≠ .close := by
  rw [Open, List.forall_mem_append, List.forall_mem_singleton]
  rfl

theorem asked_concat : asked (log ++ [m]) = asked log ++ m.1.asks.toList := by
  rw [asked, List.filterMap_append]
  cases h : m.1.asks <;> simp [asked, h]

/-- One is asked for before the other, and not also after it. -/
theorem not_sublist_swap {l : List Ticket} (h : l.Nodup) (htu : [t, u].Sublist l) :
    ¬ [u, t].Sublist l := by
  induction l with
  | nil => exact absurd htu.length_le (by simp)
  | cons x rest ih =>
    obtain ⟨hx, hrest⟩ := List.nodup_cons.1 h
    intro hut
    cases htu with
    | cons _ htu =>
      cases hut with
      | cons _ hut => exact ih hrest htu hut
      | cons_cons _ hut => exact hx (htu.subset (by simp))
    | cons_cons _ htu =>
      cases hut with
      | cons _ hut => exact hx (hut.subset (by simp))
      | cons_cons _ hut => exact hx (htu.subset (by simp))

/-- What is asked for last is not asked for before anything. -/
theorem sublist_of_concat {l : List Ticket} {x : Option Ticket} (h : [t, u].Sublist (l ++ x.toList))
    (hu : u ∈ l) (hfresh : ∀ v, x = some v → v ∉ l) : [t, u].Sublist l := by
  cases x with
  | none => simpa using h
  | some v =>
    obtain ⟨first, second, hsplit, hfirst, hsecond⟩ := List.sublist_append_iff.1 h
    cases second with
    | nil =>
      rw [List.append_nil] at hsplit
      exact hsplit ▸ hfirst
    | cons w rest =>
      obtain ⟨rfl, rfl⟩ : w = v ∧ rest = [] := by
        have hle := hsecond.length_le
        have hw := hsecond.subset (List.mem_cons_self (a := w))
        exact ⟨by simpa using hw, List.length_eq_zero_iff.1 (by simpa using hle)⟩
      have hlast : u = w := by
        have := congrArg List.getLast? hsplit
        simpa using this
      exact absurd (hlast ▸ hu) (hfresh w rfl)

end Logs

/-! ## What one event can do -/

/-- A place that is given back goes to the first in the line. -/
theorem release_of_holder {r : Room} {t : Ticket} (h : r.Sound) (ht : t ∈ r.holders) :
    r.release t = match r.line with
      | [] => ({ r with holders := r.holders.erase t }, [])
      | u :: rest =>
        ({ r with holders := r.holders.erase t ++ [u], line := rest }, [(u, .granted)]) := by
  have hpos : 0 < r.holders.length := List.length_pos_of_mem ht
  have hlength : (r.holders.erase t).length = r.holders.length - 1 := List.length_erase_of_mem ht
  have hle := h.inUse_le
  rw [inUse] at hle
  unfold release serve
  cases hline : r.line with
  | nil =>
    dsimp only
    split
    · simp
    · rfl
  | cons u rest =>
    have hopen : r.isOpen = true := by
      cases hclosed : r.isOpen with
      | true => rfl
      | false => exact absurd (hline.symm.trans (h.line_of_closed hclosed)) (by simp)
    have hfull := h.full_of_line (by simp [hline])
    rw [inUse] at hfull
    have hone : r.capacity - (r.holders.erase t).length = 1 := by omega
    simp only [hopen, inUse, hone, if_true, List.take_succ_cons, List.take_zero, List.drop_succ_cons,
      List.drop_zero, List.map_cons, List.map_nil]

/-- In a sound room nobody is left to serve. -/
theorem serve_of_sound {r : Room} (h : r.Sound) : r.serve = (r, []) := by
  have hnobody : r.line.take (r.capacity - r.inUse) = [] ∧
      r.line.drop (r.capacity - r.inUse) = r.line := by
    by_cases hline : r.line = []
    · simp [hline]
    · simp [h.full_of_line hline]
  unfold serve
  split
  · dsimp only
    rw [hnobody.1, hnobody.2, List.append_nil, List.map_nil]
  · rfl

/-- There is nothing to give back for a ticket that holds no place. -/
theorem release_of_not_holder {r : Room} {t : Ticket} (h : r.Sound) (ht : t ∉ r.holders) :
    r.release t = (r, []) := by
  rw [release, List.erase_of_not_mem ht]
  exact serve_of_sound h

/-- What an event does to a room, and how that shows in the answers. -/
structure Moves (r : Room) (m : Moment) (r' : Room) : Prop where
  sound : r'.Sound
  nodup : r'.seats.Nodup
  isOpen_iff : r'.isOpen = true ↔ r.isOpen = true ∧ m.1 ≠ .close
  block_of_line : r'.line ≠ [] → r'.policy = .block
  mem_holders : ∀ t, t ∈ r'.holders ↔ (t, .granted) ∈ m.2 ∨ t ∈ r.holders ∧ m.1 ≠ .release t
  mem_line : ∀ t, t ∈ r'.line ↔
    (∀ answer, (t, answer) ∉ m.2) ∧ (m.1 = .request t ∨ t ∈ r.line ∧ m.1 ≠ .cancel t)
  line_sublist : r'.line.Sublist (r.line ++ m.1.asks.toList)
  /-- Whoever gets a place has been in the line before those that stay there. -/
  in_turn : ∀ t ∈ r'.line, ∀ u, (u, .granted) ∈ m.2 → [u, t].Sublist r.line
  once : (m.2.map (·.1)).Nodup
  /-- Only the one who asks and those in the line are answered. -/
  asked_of_answer : ∀ x ∈ m.2, m.1 = .request x.1 ∨ x.1 ∈ r.line

section Moves

variable {r : Room} {t : Ticket}

theorem moves_turnedAway (h : r.Sound) (hnodup : r.seats.Nodup)
    (hblock : r.line ≠ [] → r.policy = .block) (hnew : t ∉ r.seats) {answer : RoomAnswer}
    (hanswer : answer ≠ .granted) : r.Moves (.request t, [(t, answer)]) r := by
  have hline : t ∉ r.line := fun ht => hnew (List.mem_append_right _ ht)
  refine ⟨h, hnodup, by simp, hblock, fun u => ?_, fun u => ?_, by simp, fun u _ v hv => ?_, by simp,
    by simp⟩
  · simp [hanswer.symm]
  · constructor
    · intro hu
      have hne : u ≠ t := fun he => hline (he ▸ hu)
      simp [hu, hne]
    · rintro ⟨hnot, hu | hu⟩
      · exact absurd (List.mem_singleton.2 (by rw [Event.request.inj hu])) (hnot answer)
      · exact hu.1
  · simp [hanswer.symm] at hv

theorem moves_granted (h : r.Sound) (hnodup : r.seats.Nodup) (hnew : t ∉ r.seats)
    (hfree : r.inUse < r.capacity) (hline : r.line = []) :
    r.Moves (.request t, [(t, .granted)]) { r with holders := r.holders ++ [t] } := by
  refine ⟨h.grant hfree hline t, ?_, by simp, by simp [hline], fun u => ?_, fun u => ?_,
    by simp [hline], by simp [hline], by simp, by simp⟩
  · rw [seats_grant hline]
    exact nodup_seats_concat hnodup hnew
  · simp [or_comm]
  · by_cases hu : u = t
    · simp [hu, hline]
    · simp [hline, Ne.symm hu]

theorem moves_waits (h : r.Sound) (hnodup : r.seats.Nodup) (hnew : t ∉ r.seats)
    (hfull : ¬ (r.inUse < r.capacity ∧ r.line = [])) (hopen : r.isOpen = true)
    (hpolicy : r.policy = .block) :
    r.Moves (.request t, []) { r with line := r.line ++ [t] } := by
  refine ⟨h.wait hfull hopen t, ?_, by simp, fun _ => hpolicy, by simp, fun u => ?_,
    by simp [Event.asks], by simp, by simp, by simp⟩
  · rw [seats_wait]
    exact nodup_seats_concat hnodup hnew
  · simp [or_comm, eq_comm]

theorem moves_release (h : r.Sound) (hnodup : r.seats.Nodup)
    (hblock : r.line ≠ [] → r.policy = .block) :
    r.Moves (.release t, (r.release t).2) (r.release t).1 := by
  have hholders := nodup_holders hnodup
  by_cases ht : t ∈ r.holders
  · have hleft := without_release h hnodup ht
    rw [release_of_holder h ht] at hleft ⊢
    cases hline : r.line with
    | nil =>
      rw [hline] at hleft
      refine ⟨hleft.sound, hleft.nodup, by simp, by simp, fun u => ?_, by simp [hline],
        by simp [hline], by simp, by simp, by simp⟩
      simp [hholders.mem_erase_iff, and_comm, eq_comm]
    | cons v rest =>
      rw [hline] at hleft
      have hv : v ∉ rest := by
        have := nodup_line hnodup
        rw [hline, List.nodup_cons] at this
        exact this.1
      refine ⟨hleft.sound, hleft.nodup, by simp, fun _ => hblock (by simp [hline]), fun u => ?_,
        fun u => ?_, by simp [hline, Event.asks], fun u hu w hw => ?_, by simp, by simp [hline]⟩
      · simp [hholders.mem_erase_iff, and_comm, eq_comm, or_comm]
      · constructor
        · intro hu
          have hne : u ≠ v := fun he => hv (he ▸ hu)
          simp [hline, hu, hne]
        · rintro ⟨hnot, hu | ⟨hu, -⟩⟩
          · cases hu
          · rw [hline] at hu
            refine (List.mem_cons.1 hu).resolve_left fun he => hnot .granted ?_
            simp [he]
      · obtain rfl : w = v := by simpa using hw
        rw [hline]
        exact (List.singleton_sublist.2 hu).cons_cons w
  · rw [release_of_not_holder h ht]
    refine ⟨h, hnodup, by simp, hblock, fun u => ?_, by simp, by simp, by simp, by simp, by simp⟩
    have hne : u ∈ r.holders → ¬ t = u := fun hu he => ht (he ▸ hu)
    simpa using hne

theorem moves_cancel (h : r.Sound) (hnodup : r.seats.Nodup)
    (hblock : r.line ≠ [] → r.policy = .block) :
    r.Moves (.cancel t, (r.cancel t).2) (r.cancel t).1 := by
  have hline := nodup_line hnodup
  have hseats : (r.cancel t).1.seats.Sublist r.seats :=
    List.Sublist.append_left List.erase_sublist r.holders
  refine ⟨h.cancel t, hnodup.sublist hseats, by simp [cancel], fun hne => hblock fun hnil => hne ?_,
    by simp [cancel], fun u => ?_, ?_, by simp [cancel], by simp [cancel], by simp [cancel]⟩
  · simp [cancel, hnil]
  · simp [cancel, hline.mem_erase_iff, and_comm, eq_comm]
  · simpa [cancel, Event.asks] using List.erase_sublist

theorem moves_close (h : r.Sound) (hnodup : r.seats.Nodup) :
    r.Moves (.close, r.close.2) r.close.1 := by
  have hline := nodup_line hnodup
  have hseats : r.close.1.seats = r.holders := List.append_nil _
  refine ⟨h.close, hseats ▸ nodup_holders hnodup, by simp [close],
    by simp [close], by simp [close], fun u => ?_, by simp [close], by simp [close], ?_, ?_⟩
  · simp [close]
  · simpa [close, Function.comp_def] using hline
  · simp [close]

/-- All events, those that ask for a place coming from somebody new. -/
theorem moves_step (h : r.Sound) (hnodup : r.seats.Nodup)
    (hblock : r.line ≠ [] → r.policy = .block) (e : Event)
    (hnew : ∀ t, e = .request t → t ∉ r.seats) : r.Moves (e, (r.step e).2) (r.step e).1 := by
  cases e with
  | request t =>
    show r.Moves (.request t, (r.request t).2) (r.request t).1
    have hnew := hnew t rfl
    by_cases hopen : r.isOpen = true
    · by_cases hfree : r.inUse < r.capacity ∧ r.line = []
      · rw [request_of_free hopen hfree]
        exact moves_granted h hnodup hnew hfree.1 hfree.2
      · cases hpolicy : r.policy with
        | block =>
          have hrequest : r.request t = ({ r with line := r.line ++ [t] }, []) := by
            rw [request_of_full hopen hfree, hpolicy]
          rw [hrequest]
          exact moves_waits h hnodup hnew hfree hopen hpolicy
        | reject =>
          rw [request_of_full hopen hfree, hpolicy]
          exact moves_turnedAway h hnodup hblock hnew (by simp)
        | dropNewest =>
          rw [request_of_full hopen hfree, hpolicy]
          exact moves_turnedAway h hnodup hblock hnew (by simp)
    · rw [request_of_closed (by simpa using hopen)]
      exact moves_turnedAway h hnodup hblock hnew (by simp)
  | release t => exact moves_release h hnodup hblock
  | cancel t => exact moves_cancel h hnodup hblock
  | close => exact moves_close h hnodup

end Moves

/-! ## A room and its log -/

/-- The room goes by its log. -/
structure Tracks (r : Room) (log : List Moment) : Prop where
  sound : r.Sound
  nodup : r.seats.Nodup
  isOpen_iff : r.isOpen = true ↔ Open log
  block_of_line : r.line ≠ [] → r.policy = .block
  mem_holders : ∀ t, t ∈ r.holders ↔ Holds log t
  mem_line : ∀ t, t ∈ r.line ↔ Waits log t
  line_sublist : r.line.Sublist (asked log)
  in_turn : ∀ t ∈ r.line, ∀ u, [t, u].Sublist (asked log) → ∀ m ∈ log, (u, .granted) ∉ m.2
  once : ((log.flatMap (·.2)).map (·.1)).Nodup
  asked_of_answer : ∀ m ∈ log, ∀ x ∈ m.2, x.1 ∈ asked log

namespace Tracks

variable {r r' : Room} {log : List Moment} {m : Moment} {t u : Ticket}

/-- Whoever has to do with the room has asked for a place. -/
theorem asked_of_seat (h : r.Tracks log) (ht : t ∈ r.seats) : t ∈ asked log := by
  rcases List.mem_append.1 ht with ht | ht
  · obtain ⟨before, m, later, rfl, hm, -⟩ := (h.mem_holders t).1 ht
    exact h.asked_of_answer m (by simp) _ hm
  · exact h.line_sublist.subset ht

theorem unanswered_of_new (h : r.Tracks log) (ht : t ∉ asked log) :
    ∀ m ∈ log, ∀ answer, (t, answer) ∉ m.2 :=
  fun m hm _ hanswer => ht (h.asked_of_answer m hm _ hanswer)

/-- One event after the others. -/
theorem next (h : r.Tracks log) (hnodup : (asked (log ++ [m])).Nodup) (hmoves : r.Moves m r') :
    r'.Tracks (log ++ [m]) := by
  have hnew : ∀ v, m.1.asks = some v → v ∉ asked log := by
    intro v hv hmem
    rw [asked_concat] at hnodup
    exact (List.nodup_append.1 hnodup).2.2 v hmem v (by simp [hv]) rfl
  have hline : r'.line.Sublist (asked (log ++ [m])) := by
    rw [asked_concat]
    exact hmoves.line_sublist.trans (h.line_sublist.append_right _)
  refine ⟨hmoves.sound, hmoves.nodup, ?_, hmoves.block_of_line, fun t => ?_, fun t => ?_, hline,
    fun t ht u htu n hn hgranted => ?_, ?_, ?_⟩
  · rw [hmoves.isOpen_iff, h.isOpen_iff, open_concat]
  · rw [hmoves.mem_holders, h.mem_holders, holds_concat]
  · rw [hmoves.mem_line, h.mem_line, waits_concat]
    refine and_congr_right fun _ => or_congr_left ⟨fun ht => ⟨ht, ?_⟩, fun ht => ht.1⟩
    exact h.unanswered_of_new (hnew t (by rw [ht]; rfl))
  · rcases List.mem_append.1 hn with hn | hn
    · -- granted before: then both have been asked for before, and the one stood in line already
      rw [asked_concat] at htu
      have hbefore := sublist_of_concat htu (h.asked_of_answer n hn _ hgranted) hnew
      rcases ((hmoves.mem_line t).1 ht).2 with hasks | ⟨hwaited, -⟩
      · exact hnew t (by rw [hasks]; rfl) (hbefore.subset (by simp))
      · exact h.in_turn t hwaited u hbefore n hn hgranted
    · obtain rfl := List.mem_singleton.1 hn
      have hturn := (hmoves.in_turn t ht u hgranted).trans h.line_sublist
      refine not_sublist_swap hnodup htu ?_
      rw [asked_concat]
      exact hturn.trans (List.sublist_append_left _ _)
  · rw [List.flatMap_append, List.map_append, List.nodup_append]
    refine ⟨h.once, by simpa using hmoves.once, fun u hu v hv he => ?_⟩
    obtain ⟨⟨_, answer⟩, hx, rfl⟩ := List.mem_map.1 hu
    obtain ⟨y, hy, rfl⟩ := List.mem_map.1 hv
    obtain ⟨n, hn, hx⟩ := List.mem_flatMap.1 hx
    obtain rfl : _ = y.1 := he
    rcases hmoves.asked_of_answer y (by simpa using hy) with hasks | hwaits
    · exact h.unanswered_of_new (hnew _ (by rw [hasks]; rfl)) n hn answer hx
    · exact ((h.mem_line _).1 hwaits).2 n hn answer hx
  · intro n hn x hx
    rw [asked_concat, List.mem_append]
    rcases List.mem_append.1 hn with hn | hn
    · exact .inl (h.asked_of_answer n hn x hx)
    · obtain rfl := List.mem_singleton.1 hn
      rcases hmoves.asked_of_answer x hx with hasks | hwaits
      · exact .inr (by simp [hasks, Event.asks])
      · exact .inl (h.line_sublist.subset hwaits)

end Tracks

theorem run_concat (r : Room) (past : List Event) (e : Event) :
    (r.run (past ++ [e])).1 = ((r.run past).1.step e).1 := by
  rw [run_fst, run_fst, List.foldl_append]
  rfl

theorem log_concat (r : Room) (past : List Event) (e : Event) :
    r.log (past ++ [e]) = r.log past ++ [(e, ((r.run past).1.step e).2)] := by
  rw [run_fst]
  induction past generalizing r with
  | nil => rfl
  | cons first rest ih => exact congrArg _ (ih _)

/-- The answers of a run are those of its log. -/
theorem run_snd (r : Room) (past : List Event) :
    (r.run past).2 = (r.log past).flatMap (·.2) := by
  induction past using List.reverseRecOn with
  | nil => rfl
  | append_singleton past e ih =>
    rw [log_concat, List.flatMap_append, ← ih, run, List.foldl_append]
    simp [run]

theorem asked_log (r : Room) (past : List Event) : asked (r.log past) = past.filterMap Event.asks := by
  induction past generalizing r with
  | nil => rfl
  | cons e rest ih =>
    rw [List.filterMap_cons, ← ih (r.step e).1]
    rfl

/-- No event changes the settings. -/
theorem settings_step (r : Room) (e : Event) :
    (r.step e).1.capacity = r.capacity ∧ (r.step e).1.policy = r.policy := by
  cases e with
  | request t =>
    show (r.request t).1.capacity = r.capacity ∧ (r.request t).1.policy = r.policy
    obtain ⟨answer, -, hstep⟩ | ⟨-, -, hstep⟩ | ⟨-, -, hstep⟩ := request_cases r t <;> rw [hstep] <;>
      exact ⟨rfl, rfl⟩
  | release t => exact ⟨capacity_serve _, policy_serve _⟩
  | cancel t => exact ⟨rfl, rfl⟩
  | close => exact ⟨rfl, rfl⟩

theorem settings_run (capacity : Nat) (policy : Overflow) (past : List Event) :
    ((new capacity policy).run past).1.capacity = capacity ∧
      ((new capacity policy).run past).1.policy = policy := by
  induction past using List.reverseRecOn with
  | nil => exact ⟨rfl, rfl⟩
  | append_singleton past e ih =>
    rw [run_concat, (settings_step _ e).1, (settings_step _ e).2]
    exact ih

theorem tracks_new (capacity : Nat) (policy : Overflow) : (new capacity policy).Tracks [] := by
  have hnever : ∀ {P Q : Moment → Prop}, ¬ Since P Q [] := by
    rintro P Q ⟨before, m, later, h, -⟩
    simp at h
  exact ⟨sound_new capacity policy, by simp [new, seats], by simp [new, Open], by simp [new],
    fun t => by simp [new, Holds, hnever], fun t => by simp [new, Waits, hnever], by simp [new, asked],
    by simp [new], by simp, by simp⟩

/-- After every run. -/
theorem tracks_log (capacity : Nat) (policy : Overflow) {past : List Event}
    (h : (past.filterMap Event.asks).Nodup) :
    ((new capacity policy).run past).1.Tracks ((new capacity policy).log past) := by
  induction past using List.reverseRecOn with
  | nil => exact tracks_new capacity policy
  | append_singleton past e ih =>
    have hpast : (past.filterMap Event.asks).Nodup := by
      rw [List.filterMap_append] at h
      exact h.sublist (List.sublist_append_left _ _)
    have htracks := ih hpast
    rw [← asked_log (new capacity policy), log_concat] at h
    rw [run_concat, log_concat]
    refine htracks.next h (moves_step htracks.sound htracks.nodup htracks.block_of_line e ?_)
    rintro t rfl hseat
    rw [asked_concat] at h
    exact (List.nodup_append.1 h).2.2 t (htracks.asked_of_seat hseat) t (by simp [Event.asks]) rfl

/-! ## Order -/

/-- What a room promises, said by its log alone. -/
structure Orderly (r : Room) (log : List Moment) : Prop where
  /-- The places in use are those that have been granted and not released since. -/
  inUse_eq : r.inUse = {t | Holds log t}.ncard
  inUse_le : r.inUse ≤ r.capacity
  /-- A ticket waits only while all places are in use, and only under the one policy. -/
  waiting : ∀ t, Waits log t → Open log ∧ r.policy = .block ∧ r.inUse = r.capacity
  /-- Nobody gets a place before one that has asked earlier and still waits. -/
  in_turn : ∀ t u, Waits log t → [t, u].Sublist (asked log) → ∀ m ∈ log, (u, .granted) ∉ m.2
  /-- Nobody is answered twice. -/
  once : ((log.flatMap (·.2)).map (·.1)).Nodup
  /-- Who asks now gets a place if there is one, and without one does as the policy says. -/
  request : ∀ t, Open log → (r.step (.request t)).2 =
    if r.inUse < r.capacity then [(t, .granted)]
    else match r.policy with
      | .block => []
      | .reject => [(t, .refused (.queueFull r.capacity))]
      | .dropNewest => [(t, .dropped)]
  /-- A place given back now goes to the one who has waited longest, and is free if nobody waits. -/
  release : ∀ t, Holds log t →
    (∃ u, Waits log u ∧ (∀ v, Waits log v → v = u ∨ [u, v].Sublist (asked log)) ∧
      (r.step (.release t)).2 = [(u, .granted)] ∧ (r.step (.release t)).1.inUse = r.inUse) ∨
    (∀ u, ¬ Waits log u) ∧ (r.step (.release t)).2 = [] ∧
      (r.step (.release t)).1.inUse + 1 = r.inUse
  /-- Who goes away now takes no place along. -/
  cancel : ∀ t, (r.step (.cancel t)).2 = [] ∧ (r.step (.cancel t)).1.inUse = r.inUse
  /-- Who waits when the room closes is told so. -/
  closing : ∀ x, x ∈ (r.step .close).2 ↔ ∃ t, Waits log t ∧ x = (t, .refused .queueClosed)
  /-- And so is who asks later, and nobody gets a place any more. -/
  closed : ¬ Open log → (∀ t, (r.step (.request t)).2 = [(t, .refused .queueClosed)]) ∧
    (∀ t, Holds log t → (r.step (.release t)).1.inUse + 1 = r.inUse) ∧
    ∀ e t, (t, .granted) ∉ (r.step e).2

namespace Tracks

variable {r : Room} {log : List Moment} {t : Ticket}

theorem inUse_eq (h : r.Tracks log) : r.inUse = {t | Holds log t}.ncard := by
  have hholders : {t | Holds log t} = (r.holders.toFinset : Set Ticket) := by
    ext t
    simp [h.mem_holders]
  rw [hholders, Set.ncard_coe_finset, List.toFinset_card_of_nodup (nodup_holders h.nodup), inUse]

theorem isOpen_of_closed (h : r.Tracks log) (hclosed : ¬ Open log) : r.isOpen = false :=
  Bool.eq_false_iff.2 fun hopen => hclosed (h.isOpen_iff.1 hopen)

theorem waiting (h : r.Tracks log) (ht : Waits log t) :
    Open log ∧ r.policy = .block ∧ r.inUse = r.capacity := by
  have hline : r.line ≠ [] := List.ne_nil_of_mem ((h.mem_line t).2 ht)
  refine ⟨not_not.1 fun hclosed => hline ?_, h.block_of_line hline, h.sound.full_of_line hline⟩
  exact h.sound.line_of_closed (h.isOpen_of_closed hclosed)

theorem request (h : r.Tracks log) (hopen : Open log) (t : Ticket) : (r.step (.request t)).2 =
    if r.inUse < r.capacity then [(t, .granted)]
    else match r.policy with
      | .block => []
      | .reject => [(t, .refused (.queueFull r.capacity))]
      | .dropNewest => [(t, .dropped)] := by
  have hopen : r.isOpen = true := h.isOpen_iff.2 hopen
  show (r.request t).2 = _
  split
  · next hfree =>
    have hline : r.line = [] := not_not.1 fun hne => by
      have := h.sound.full_of_line hne
      omega
    rw [request_of_free hopen ⟨hfree, hline⟩]
  · next hfull =>
    rw [request_of_full hopen fun hfree => hfull hfree.1]
    cases r.policy <;> rfl

theorem release (h : r.Tracks log) (ht : Holds log t) :
    (∃ u, Waits log u ∧ (∀ v, Waits log v → v = u ∨ [u, v].Sublist (asked log)) ∧
      (r.step (.release t)).2 = [(u, .granted)] ∧ (r.step (.release t)).1.inUse = r.inUse) ∨
    (∀ u, ¬ Waits log u) ∧ (r.step (.release t)).2 = [] ∧
      (r.step (.release t)).1.inUse + 1 = r.inUse := by
  have ht : t ∈ r.holders := (h.mem_holders t).2 ht
  have hpos : 0 < r.holders.length := List.length_pos_of_mem ht
  have hlength : (r.holders.erase t).length = r.holders.length - 1 := List.length_erase_of_mem ht
  have hrelease := release_of_holder h.sound ht
  have hwaits := h.mem_line
  have hsublist := h.line_sublist
  show (∃ u, _ ∧ _ ∧ (r.release t).2 = _ ∧ (r.release t).1.inUse = _) ∨
    _ ∧ (r.release t).2 = _ ∧ (r.release t).1.inUse + 1 = _
  cases hline : r.line with
  | nil =>
    rw [hline] at hrelease hwaits
    refine .inr ⟨fun u hu => absurd ((hwaits u).2 hu) (by simp), by rw [hrelease], ?_⟩
    rw [hrelease]
    simp only [inUse]
    omega
  | cons u rest =>
    rw [hline] at hrelease hwaits hsublist
    refine .inl ⟨u, (hwaits u).1 (by simp), fun v hv => ?_, by rw [hrelease], ?_⟩
    · refine (List.mem_cons.1 ((hwaits v).2 hv)).imp_right fun hv => ?_
      exact ((List.singleton_sublist.2 hv).cons_cons u).trans hsublist
    · rw [hrelease]
      simp only [inUse, List.length_append, List.length_singleton]
      omega

theorem closing (h : r.Tracks log) (x : Ticket × RoomAnswer) :
    x ∈ (r.step .close).2 ↔ ∃ t, Waits log t ∧ x = (t, .refused .queueClosed) := by
  show x ∈ r.line.map _ ↔ _
  simp [h.mem_line, eq_comm]

theorem closed (h : r.Tracks log) (hclosed : ¬ Open log) :
    (∀ t, (r.step (.request t)).2 = [(t, .refused .queueClosed)]) ∧
      (∀ t, Holds log t → (r.step (.release t)).1.inUse + 1 = r.inUse) ∧
      ∀ e t, (t, .granted) ∉ (r.step e).2 := by
  have hshut := h.isOpen_of_closed hclosed
  have hrequest (t : Ticket) : (r.step (.request t)).2 = [(t, .refused .queueClosed)] :=
    congrArg Prod.snd (request_of_closed hshut t)
  refine ⟨hrequest, fun t ht => ?_, fun e t => ?_⟩
  · rcases h.release ht with ⟨u, hu, -⟩ | ⟨-, -, hfree⟩
    · exact absurd (h.waiting hu).1 hclosed
    · exact hfree
  cases e with
  | request u => simp [hrequest]
  | release u => simp [step, Room.release, serve, hshut]
  | cancel u => simp [step, Room.cancel]
  | close => simp [step, Room.close]

theorem orderly (h : r.Tracks log) : r.Orderly log where
  inUse_eq := h.inUse_eq
  inUse_le := h.sound.inUse_le
  waiting _ := h.waiting
  in_turn t u ht := h.in_turn t ((h.mem_line t).2 ht) u
  once := h.once
  request t hopen := h.request hopen t
  release _ := h.release
  cancel _ := ⟨rfl, rfl⟩
  closing := h.closing
  closed := h.closed

end Tracks

/-- After every run of a room of any size, whatever its policy, the room is orderly, and has answered
what its log says. -/
theorem run_orderly (capacity : Nat) (policy : Overflow) (past : List Event)
    (h : (past.filterMap Event.asks).Nodup) :
    let r := ((new capacity policy).run past).1
    r.capacity = capacity ∧ r.policy = policy ∧ r.Orderly ((new capacity policy).log past) ∧
      ((new capacity policy).run past).2 = ((new capacity policy).log past).flatMap (·.2) :=
  ⟨(settings_run capacity policy past).1, (settings_run capacity policy past).2,
    (tracks_log capacity policy h).orderly, run_snd _ past⟩

/-- With one place: ticket 1 goes away before its turn, so ticket 2 gets the place of ticket 0. -/
theorem run_orderly_one_place :
    let past : List Event := [.request 0, .request 1, .request 2, .cancel 1, .release 0]
    let r := ((new 1 .block).run past).1
    (past.filterMap Event.asks).Nodup ∧ r.Orderly ((new 1 .block).log past) ∧
      (new 1 .block).log past = [(.request 0, [(0, .granted)]), (.request 1, []), (.request 2, []),
        (.cancel 1, []), (.release 0, [(2, .granted)])] ∧ r.inUse = 1 := by
  intro past r
  have h : (past.filterMap Event.asks).Nodup := by decide
  exact ⟨h, (run_orderly 1 .block past h).2.2.1, by decide, by decide⟩

end Historian.Room
