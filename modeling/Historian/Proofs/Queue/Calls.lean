import Historian.Proofs.Queue.Places

/-!
# The calls that wait

Calls begin to wait when they are made, and end when they are answered or dropped.  Flushes are counted
meanwhile, and a stop that waits has closed the pool.

* `Pool.Waits` — all that one event can do to the calls that wait, to the counter of flushes and to
  whether the pool takes samples; `Pool.step_waits`: every event does one of these things.
* `Pool.step_isOpen` — a stop closes the pool, and nothing opens it again.
* `Pool.mem_waiting_step` — which calls wait after an event.
* `Pool.Waits.flushers_eq` — the counter of flushes stays the flushes that wait and those that have
  been dropped.
-/

set_option autoImplicit false

namespace Historian

namespace Room

theorem isOpen_release (r : Room) (t : Ticket) : (r.release t).1.isOpen = r.isOpen :=
  isOpen_serve _

/-- Giving places back neither opens nor closes a room. -/
theorem isOpen_releases (ts : List Ticket) (r : Room) :
    (r.run (ts.map .release)).1.isOpen = r.isOpen := by
  rw [run_fst]
  induction ts generalizing r with
  | nil => rfl
  | cons t rest ih => exact (ih _).trans (isOpen_release r t)

end Room

namespace Pool

variable {p q : Pool} {e : Event}

theorem isOpen_leaveRoom (p : Pool) (t : Ticket) : (p.leaveRoom t).isOpen = p.isOpen := by
  rw [isOpen, leaveRoom]
  dsimp only
  split
  · exact Room.isOpen_release p.room t
  · rfl

/-! ## What an event does -/

/-- Whether the call wants everything pending written. -/
def Call.flushes (c : Call) : Bool :=
  match c.request with
  | .flush => true
  | _ => false

/-- What an event that makes `q` of the pool does to the calls that wait. -/
inductive Waits (p q : Pool) : Event → Prop
  /-- Nothing: a stop finds the pool closed, or a call to be dropped does not wait. -/
  | same (e : Event) (hstop : e = .call .stop → p.isOpen = false)
      (hdrop : ∀ n, e = .abandon n → p.waitingCall? n = none) (hwaiting : q.waiting = p.waiting)
      (hflushers : q.flushers = p.flushers) (hopen : q.isOpen = p.isOpen) : Waits p q e
  /-- A save or a flush begins to wait. -/
  | park (r : Request) (hr : r ≠ .stop) (hwaiting : q.waiting = p.waiting ++ [⟨p.calls, r, p.now⟩])
      (hflushers : q.flushers = p.flushers + if (Call.mk p.calls r p.now).flushes then 1 else 0)
      (hopen : q.isOpen = p.isOpen) : Waits p q (.call r)
  /-- A stop closes the pool and waits. -/
  | stop (hopen : p.isOpen = true)
      (hwaiting : q.waiting = p.waiting ++ [⟨p.calls, .stop, p.now⟩])
      (hflushers : q.flushers = p.flushers) (hclosed : q.isOpen = false) : Waits p q (.call .stop)
  /-- A call is answered; a flush is counted no longer. -/
  | settle (c : Call) (hc : c ∈ p.waiting) (hwaiting : q.waiting = (p.unpark c.number).waiting)
      (hflushers : q.flushers = p.flushers - if c.flushes then 1 else 0)
      (hopen : q.isOpen = p.isOpen) : Waits p q (.poll c.number)
  /-- A call is dropped; a flush stays counted. -/
  | leave (c : Call) (hc : p.waitingCall? c.number = some c)
      (hwaiting : q.waiting = (p.unpark c.number).waiting) (hflushers : q.flushers = p.flushers)
      (hopen : q.isOpen = p.isOpen) : Waits p q (.abandon c.number)

theorem call_waits (p : Pool) (request : Request) :
    Waits p (p.call request).1 (.call request) := by
  cases request with
  | save series sample =>
    simp only [call, save]
    rcases p.room.request_cases p.calls with ⟨answer, hanswer, hrequest⟩ | ⟨-, -, hrequest⟩ |
      ⟨-, -, hrequest⟩
    · rw [hrequest, List.lookup_cons_self]
      cases answer with
      | granted => exact absurd rfl hanswer
      | dropped => exact .same _ (by simp) (by simp) rfl rfl rfl
      | refused cause => exact .same _ (by simp) (by simp) rfl rfl rfl
    · rw [hrequest, List.lookup_cons_self]
      exact .same _ (by simp) (by simp) rfl rfl rfl
    · rw [hrequest, List.lookup_nil]
      exact .park _ (by simp) rfl rfl rfl
  | flush =>
    simp only [call, flush]
    split
    · exact .same _ (by simp) (by simp) rfl rfl rfl
    · exact .park _ (by simp) rfl rfl rfl
  | stop =>
    simp only [call, stop]
    split
    · rename_i hopen
      exact .stop hopen rfl rfl rfl
    · rename_i hclosed
      exact .same _ (fun _ => eq_false_of_ne_true hclosed) (by simp) rfl rfl rfl

theorem poll_waits (p : Pool) (n : Ticket) : Waits p (p.poll n).1 (.poll n) := by
  have hsame : Waits p p (.poll n) := .same _ (by simp) (by simp) rfl rfl rfl
  simp only [poll]
  cases hfind : p.waitingCall? n with
  | none => exact hsame
  | some c =>
    obtain ⟨hc, rfl⟩ := exists_of_waitingCall? hfind
    simp only
    cases hrequest : c.request with
    | save series sample =>
      have hflushers : p.flushers = p.flushers - if c.flushes then 1 else 0 := by
        rw [Call.flushes, hrequest]
        rfl
      simp only
      split
      · exact .settle c hc rfl hflushers (isOpen_leaveRoom _ _)
      · split
        · exact .settle c hc rfl hflushers rfl
        · exact hsame
    | flush =>
      simp only
      split
      · exact .settle c hc rfl (by rw [Call.flushes, hrequest]; rfl) rfl
      · exact hsame
    | stop =>
      have hflushers : p.flushers = p.flushers - if c.flushes then 1 else 0 := by
        rw [Call.flushes, hrequest]
        rfl
      simp only
      split
      · exact .settle c hc rfl hflushers rfl
      · split
        · exact .settle c hc rfl hflushers rfl
        · exact hsame

theorem abandon_waits (p : Pool) (n : Ticket) : Waits p (p.abandon n) (.abandon n) := by
  simp only [abandon]
  cases hfind : p.waitingCall? n with
  | none =>
    refine .same _ (by simp) (fun m hm => ?_) rfl rfl rfl
    cases hm
    exact hfind
  | some c =>
    obtain ⟨-, rfl⟩ := exists_of_waitingCall? hfind
    simp only
    cases c.request with
    | save series sample => exact .leave c hfind rfl rfl (isOpen_leaveRoom _ _)
    | flush => exact .leave c hfind rfl rfl rfl
    | stop => exact .leave c hfind rfl rfl rfl

/-- Every event does one of these things. -/
theorem step_waits (p : Pool) (e : Event) : Waits p (p.step e).1 e := by
  cases e with
  | call request => exact p.call_waits request
  | poll n => exact p.poll_waits n
  | abandon n => exact p.abandon_waits n
  | work i =>
    have hwork : (p.work i).1.waiting = p.waiting ∧ (p.work i).1.flushers = p.flushers ∧
        (p.work i).1.isOpen = p.isOpen := by
      simp only [work, gather]
      repeat' split
      all_goals exact ⟨rfl, rfl, rfl⟩
    exact .same _ (by simp) (by simp) hwork.1 hwork.2.1 hwork.2.2
  | finish i stored =>
    simp only [step, finish]
    split
    · refine .same _ (by simp) (by simp) rfl rfl ?_
      rename_i batch turn hw
      have hreleases := Room.isOpen_releases (batch.map Item.ticket) p.room
      rwa [List.map_map] at hreleases
    · exact .same _ (by simp) (by simp) rfl rfl rfl
  | advance time => exact .same _ (by simp) (by simp) rfl rfl rfl

/-- A stop closes the pool, and nothing opens it again. -/
theorem step_isOpen (p : Pool) (e : Event) :
    (p.step e).1.isOpen = if e = .call .stop then false else p.isOpen := by
  have hwaits := p.step_waits e
  generalize (p.step e).1 = q at hwaits
  cases hwaits with
  | same _ hstop _ _ _ hopen =>
    split
    · rename_i he
      rw [hopen, hstop he]
    · exact hopen
  | park r hr _ _ hopen => rw [if_neg (by simpa using hr), hopen]
  | stop _ _ _ hclosed => rw [if_pos rfl, hclosed]
  | settle _ _ _ _ hopen => rw [if_neg (by simp), hopen]
  | leave _ _ _ _ hopen => rw [if_neg (by simp), hopen]

/-! ## Calls -/

/-- The calls that wait after an event have waited before, or are made by it; a stop only waits if it
closes the pool. -/
theorem Waits.mem_cases (h : Waits p q e) {c : Call} (hc : c ∈ q.waiting) :
    c ∈ p.waiting ∨
      e = .call c.request ∧ c.number = p.calls ∧ (c.request = .stop → p.isOpen = true) := by
  cases h with
  | same _ _ _ hwaiting => exact .inl (hwaiting ▸ hc)
  | park r hr hwaiting =>
    refine (List.mem_append.1 (hwaiting ▸ hc)).imp_right fun hc => ?_
    obtain rfl := List.mem_singleton.1 hc
    exact ⟨rfl, rfl, fun hstop => absurd hstop hr⟩
  | stop hopen hwaiting =>
    refine (List.mem_append.1 (hwaiting ▸ hc)).imp_right fun hc => ?_
    obtain rfl := List.mem_singleton.1 hc
    exact ⟨rfl, rfl, fun _ => hopen⟩
  | settle d _ hwaiting => exact .inl (List.mem_filter.1 (hwaiting ▸ hc)).1
  | leave d _ hwaiting => exact .inl (List.mem_filter.1 (hwaiting ▸ hc)).1

/-- A call that is dropped waits no longer. -/
theorem Waits.ne_of_abandon {n : Ticket} (h : Waits p q (.abandon n)) {c : Call}
    (hc : c ∈ q.waiting) : c.number ≠ n := by
  cases h with
  | same _ _ hdrop hwaiting =>
    have hmiss := List.find?_eq_none.1 (hdrop n rfl) c (hwaiting ▸ hc)
    simpa using hmiss
  | leave d _ hwaiting =>
    have hkept := (List.mem_filter.1 (hwaiting ▸ hc)).2
    simpa using hkept

/-! ## Flushes -/

/-- The flushes in progress. -/
def flushing (p : Pool) : Nat := p.waiting.countP Call.flushes

theorem flushing_pos {c : Call} (hc : c ∈ p.waiting) (hrequest : c.request = .flush) :
    0 < p.flushing :=
  List.countP_pos_iff.2 ⟨c, hc, by rw [Call.flushes, hrequest]⟩

theorem exists_of_flushing_pos (h : 0 < p.flushing) : ∃ c ∈ p.waiting, c.request = .flush := by
  obtain ⟨c, hc, hflushes⟩ := List.countP_pos_iff.1 h
  refine ⟨c, hc, ?_⟩
  cases hrequest : c.request with
  | flush => rfl
  | _ => simp [Call.flushes, hrequest] at hflushes

/-- No flush waits while none is counted. -/
theorem no_flush_of_flushers (hle : p.flushing ≤ p.flushers) (hnone : p.flushers = 0) :
    ∀ c ∈ p.waiting, c.request ≠ .flush := by
  intro c hc hrequest
  have hcounted := flushing_pos hc hrequest
  omega

/-- How many flushes an event drops. -/
def droppedBy (p : Pool) : Event → Nat
  | .abandon n => if (p.waitingCall? n).any Call.flushes then 1 else 0
  | _ => 0

/-- A call that waits no longer is one flush less, if it is one. -/
theorem flushing_unpark (hnodup : (p.waiting.map Call.number).Nodup) {c : Call}
    (hc : c ∈ p.waiting) :
    p.flushing = (p.unpark c.number).flushing + if c.flushes then 1 else 0 := by
  obtain ⟨before, after, hsplit⟩ := List.append_of_mem hc
  rw [hsplit, List.map_append, List.map_cons, List.nodup_middle, List.nodup_cons,
    ← List.map_append] at hnodup
  have hothers : (before ++ after).filter (fun d => d.number != c.number) = before ++ after := by
    rw [List.filter_eq_self]
    intro d hd
    exact bne_iff_ne.2 fun h => hnodup.1 (h ▸ List.mem_map_of_mem hd)
  have hleft : (p.unpark c.number).waiting = before ++ after := by
    rw [unpark, hsplit, List.filter_append, List.filter_cons_of_neg (by simp), ← List.filter_append,
      hothers]
  rw [flushing, flushing, hleft, hsplit, List.countP_append, List.countP_append, List.countP_cons]
  omega

theorem flushing_congr (h : q.waiting = p.waiting) : q.flushing = p.flushing :=
  congrArg (List.countP Call.flushes) h

theorem flushing_concat {c : Call} (h : q.waiting = p.waiting ++ [c]) :
    q.flushing = p.flushing + if c.flushes then 1 else 0 := by
  rw [flushing, h, List.countP_append, List.countP_singleton]
  rfl

/-- One event keeps the account of the flushes, and adds to it the one that it drops. -/
theorem Waits.flushers_eq (h : Waits p q e) (hnodup : (p.waiting.map Call.number).Nodup) {k : Nat}
    (hk : p.flushers = p.flushing + k) : q.flushers = q.flushing + (k + p.droppedBy e) := by
  cases h with
  | same _ _ hdrop hwaiting hflushers =>
    have hnone : p.droppedBy e = 0 := by
      cases e with
      | abandon n => simp [droppedBy, hdrop n rfl]
      | _ => rfl
    rw [hflushers, hk, hnone, flushing_congr hwaiting]
    rfl
  | park r hr hwaiting hflushers =>
    rw [hflushers, hk, flushing_concat hwaiting]
    show _ = _ + (k + 0)
    omega
  | stop _ hwaiting hflushers =>
    rw [hflushers, hk, flushing_concat hwaiting]
    rfl
  | settle c hc hwaiting hflushers =>
    have hless := flushing_unpark hnodup hc
    rw [hflushers, hk, flushing_congr hwaiting]
    show _ = _ + (k + 0)
    omega
  | leave c hc hwaiting hflushers =>
    have hless := flushing_unpark hnodup (List.mem_of_find?_eq_some hc)
    rw [hflushers, hk, flushing_congr hwaiting, droppedBy, hc, Option.any_some]
    omega

/-- So every flush that waits is counted; some that are counted may have been dropped. -/
theorem Waits.flushing_le (h : Waits p q e) (hnodup : (p.waiting.map Call.number).Nodup)
    (hle : p.flushing ≤ p.flushers) : q.flushing ≤ q.flushers := by
  have hcount := h.flushers_eq hnodup (Nat.add_sub_of_le hle).symm
  omega

/-- Nobody is counted among the flushes but by asking for one. -/
theorem Waits.flushers_le (h : Waits p q e) (he : e ≠ .call .flush) : q.flushers ≤ p.flushers := by
  cases h with
  | same _ _ _ _ hflushers => exact Nat.le_of_eq hflushers
  | park r hr _ hflushers =>
    cases r with
    | flush => exact absurd rfl he
    | stop => exact absurd rfl hr
    | save series sample => exact Nat.le_of_eq hflushers
  | stop _ _ hflushers => exact Nat.le_of_eq hflushers
  | settle _ _ _ hflushers => exact hflushers ▸ Nat.sub_le _ _
  | leave _ _ _ hflushers => exact Nat.le_of_eq hflushers

end Pool

end Historian
