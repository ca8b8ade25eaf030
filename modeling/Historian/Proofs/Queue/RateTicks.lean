import Historian.Queue.RateMeter
import Mathlib.Data.List.Induction

/-!
# The ticks of a rate meter

A meter divides the time since its creation into ticks, but it looks at the clock only when it is
called.  The first call in a new tick folds in the tick of the call before it, with all that was marked
there, and the ticks in between, in which nothing was.

* `RateMeter.visited` — a meter after some calls, at any distance from each other.
* `RateMeter.Exact` — the meter stands in the tick of its clock, holds what has been marked there, and
  has folded in every tick before, once and in order.
* `RateMeter.catchUp_eq`, `RateMeter.catchUp_behind` — a call catches up with fewer than `2 ^ 32` ticks
  that are over, and stays behind otherwise.
* `RateMeter.Exact.visit` — one call keeps a meter exact if it comes soon enough;
  `RateMeter.visited_exact_iff` — a meter is exact after every call just if each of them does.
* `RateMeter.visited_behind` — what becomes of events that are marked after a longer gap.
-/

set_option autoImplicit false

namespace Historian.RateMeter

/-! ## Calls -/

inductive Call
  /-- Record some events. -/
  | mark (count : Nat)
  /-- Ask for the rate. -/
  | read
  deriving DecidableEq

/-- The events that a call records. -/
def Call.count : Call → Nat
  | mark count => count
  | read => 0

/-- A call, and how long after the call before it is made. -/
structure Visit where
  wait : Nat
  call : Call
  deriving DecidableEq

/-- A meter and its clock. -/
structure Watched where
  meter : RateMeter
  now : Nat

def Watched.visit (s : Watched) (v : Visit) : Watched :=
  match v.call with
  | .mark count => ⟨s.meter.markAt count (s.now + v.wait), s.now + v.wait⟩
  | .read => ⟨s.meter.catchUp (s.now + v.wait), s.now + v.wait⟩

/-- A meter after some calls. -/
def visited (tick created : Nat) (visits : List Visit) : Watched :=
  visits.foldl Watched.visit ⟨ofNanos tick created, created⟩

/-- The time from the creation of a meter to the last of some calls. -/
def elapsed : List Visit → Nat
  | [] => 0
  | v :: rest => v.wait + elapsed rest

/-! ## Ticks -/

/-- The length of a tick of a meter that is made with the given one. -/
def tickLength (tick : Nat) : Nat := max tick nanosPerMilli

/-- The tick in which the last of some calls is made; the first tick has number 0. -/
def tickOf (tick : Nat) (visits : List Visit) : Nat := elapsed visits / tickLength tick

/-- How many events some calls mark in tick `i`, if `start` has gone by when they begin. -/
def markedFrom (length : Nat) (start : Nat) (i : Nat) : List Visit → Nat
  | [] => 0
  | v :: rest =>
    (if (start + v.wait) / length = i then v.call.count else 0) +
      markedFrom length (start + v.wait) i rest

/-- How many events the calls mark in tick `i`. -/
def markedIn (tick : Nat) (visits : List Visit) (i : Nat) : Nat :=
  markedFrom (tickLength tick) 0 i visits

/-- A tick with the events marked in it, and the ticks after it that are folded in together with it. -/
structure Stretch where
  count : Nat
  idle : Nat

namespace Stretch

/-- The counts of the ticks of a stretch. -/
def counts (x : Stretch) : List Nat := x.count :: List.replicate x.idle 0

/-- The average with one more stretch in it; of a longer time without events no more than `2 ^ 31 - 1`
ticks are told apart. -/
def foldInto (tick : Nat) (average : Float × Bool) (x : Stretch) : Float × Bool :=
  (folded ⟨tick, x.count, average.1, average.2, 0⟩ (min x.idle (twoTo 31 - 1)), true)

end Stretch

/-- The average of some stretches, and whether there are any. -/
def average (tick : Nat) (stretches : List Stretch) : Float × Bool :=
  stretches.foldl (Stretch.foldInto tick) (0.0, false)

/-- The events of the first `n` ticks, as far as a tick can hold them. -/
def counts (tick : Nat) (visits : List Visit) (n : Nat) : List Nat :=
  (List.range n).map fun i => min (markedIn tick visits i) maxUncounted

/-- The meter is where its clock is, and counts every event in the tick in which it was marked. -/
structure Exact (tick created : Nat) (visits : List Visit) : Prop where
  /-- The tick of the meter began a whole number of ticks after its creation, -/
  aligned : ∃ k, (visited tick created visits).meter.lastTick = created + k * tickLength tick
  /-- and it is going on. -/
  begun : (visited tick created visits).meter.lastTick ≤ (visited tick created visits).now
  not_over : (visited tick created visits).now <
    (visited tick created visits).meter.lastTick + tickLength tick
  /-- The events that are not counted yet are those of this tick. -/
  uncounted_eq : (visited tick created visits).meter.uncounted =
    min (markedIn tick visits (tickOf tick visits)) maxUncounted
  /-- The others are in the average, tick by tick. -/
  folded_eq : ∃ stretches,
    stretches.flatMap Stretch.counts = counts tick visits (tickOf tick visits) ∧
    ((visited tick created visits).meter.rate, (visited tick created visits).meter.started) =
      average (tickLength tick) stretches

variable {m : RateMeter} {tick created start : Nat} {visits : List Visit}

/-! ## What a call adds -/

theorem tickLength_pos (tick : Nat) : 0 < tickLength tick :=
  Nat.lt_of_lt_of_le (by decide) (Nat.le_max_right tick nanosPerMilli)

theorem elapsed_concat (visits : List Visit) (v : Visit) :
    elapsed (visits ++ [v]) = elapsed visits + v.wait := by
  induction visits with
  | nil => exact Nat.add_comm ..
  | cons u rest ih => rw [List.cons_append, elapsed, elapsed, ih, Nat.add_assoc]

theorem tickOf_le_concat (tick : Nat) (visits : List Visit) (v : Visit) :
    tickOf tick visits ≤ tickOf tick (visits ++ [v]) := by
  rw [tickOf, tickOf, elapsed_concat]
  exact Nat.div_le_div_right (Nat.le_add_right _ _)

theorem markedFrom_append (length start i : Nat) (xs ys : List Visit) :
    markedFrom length start i (xs ++ ys) =
      markedFrom length start i xs + markedFrom length (start + elapsed xs) i ys := by
  induction xs generalizing start with
  | nil => simp [markedFrom, elapsed]
  | cons v rest ih =>
    rw [List.cons_append, markedFrom, markedFrom, ih, elapsed, ← Nat.add_assoc start]
    exact (Nat.add_assoc ..).symm

theorem markedIn_concat (visits : List Visit) (v : Visit) (i : Nat) :
    markedIn tick (visits ++ [v]) i =
      markedIn tick visits i + if tickOf tick (visits ++ [v]) = i then v.call.count else 0 := by
  simp [markedIn, markedFrom_append, markedFrom, tickOf, elapsed_concat]

/-- Nothing has been marked in the ticks to come. -/
theorem markedFrom_later {length i : Nat} (h : (start + elapsed visits) / length < i) :
    markedFrom length start i visits = 0 := by
  induction visits generalizing start with
  | nil => rfl
  | cons v rest ih =>
    rw [elapsed, ← Nat.add_assoc] at h
    have hfirst : (start + v.wait) / length ≠ i :=
      Nat.ne_of_lt (Nat.lt_of_le_of_lt (Nat.div_le_div_right (Nat.le_add_right _ _)) h)
    rw [markedFrom, if_neg hfirst, ih h]

theorem markedIn_later {i : Nat} (h : tickOf tick visits < i) : markedIn tick visits i = 0 :=
  markedFrom_later (by rwa [Nat.zero_add])

theorem visited_concat (visits : List Visit) (v : Visit) :
    visited tick created (visits ++ [v]) = (visited tick created visits).visit v := by
  simp [visited]

theorem visited_now (visits : List Visit) :
    (visited tick created visits).now = created + elapsed visits := by
  induction visits using List.reverseRecOn with
  | nil => rfl
  | append_singleton visits v ih =>
    rw [visited_concat, elapsed_concat, ← Nat.add_assoc, ← ih, Watched.visit]
    split <;> rfl

/-- A call marks its events when the meter has caught up with the clock. -/
theorem visit_meter (s : Watched) (v : Visit) {n : Nat}
    (hcount : min ((s.meter.catchUp (s.now + v.wait)).uncounted + v.call.count) maxUncounted = n)
    (hle : (s.meter.catchUp (s.now + v.wait)).uncounted ≤ maxUncounted) :
    (s.visit v).meter = { s.meter.catchUp (s.now + v.wait) with uncounted := n } := by
  obtain ⟨wait, call⟩ := v
  subst hcount
  cases call with
  | mark count => rfl
  | read =>
    simp only [Call.count, Nat.add_zero, Nat.min_eq_left hle]
    rfl

/-! ## Ticks that are over -/

theorem ticksOver_eq {k e : Nat} (hlast : m.lastTick = created + k * m.tick) :
    m.ticksOver (created + e) = (e / m.tick - k) % twoTo 64 := by
  rw [ticksOver, hlast, Nat.add_sub_add_left, Nat.mul_comm, Nat.sub_mul_div]

/-- A meter catches up with fewer than `2 ^ 32` ticks. -/
theorem catchUp_eq {k e : Nat} (hlast : m.lastTick = created + k * m.tick) (hk : k < e / m.tick)
    (hsoon : e / m.tick < k + twoTo 32) :
    m.catchUp (created + e) =
      { m with
        uncounted := 0
        rate := m.folded (min (e / m.tick - k - 1) (twoTo 31 - 1))
        started := true
        lastTick := created + e / m.tick * m.tick } := by
  have hwide : twoTo 32 ≤ twoTo 64 := by decide
  have hticks : m.ticksOver (created + e) = e / m.tick - k := by
    rw [ticksOver_eq hlast]
    exact Nat.mod_eq_of_lt (by omega)
  have hcap : min (e / m.tick - k) (twoTo 32 - 1) = e / m.tick - k := Nat.min_eq_left (by omega)
  have hnext : m.lastTick + m.tick * (e / m.tick - k) = created + e / m.tick * m.tick := by
    rw [hlast, Nat.mul_comm m.tick, Nat.add_assoc, ← Nat.add_mul]
    congr 2
    omega
  simp only [catchUp, hticks, hcap, hnext]
  rw [if_neg (by omega)]

theorem catchUp_of_same {k e : Nat} (hlast : m.lastTick = created + k * m.tick)
    (hk : e / m.tick = k) : m.catchUp (created + e) = m := by
  have hnone : m.ticksOver (created + e) = 0 := by
    rw [ticksOver_eq hlast, hk, Nat.sub_self, Nat.zero_mod]
  simp only [catchUp, hnone, if_true]

/-- With `2 ^ 32` ticks or more it does not: the tick in which it stands then is over. -/
theorem catchUp_behind {now : Nat} (hgap : m.lastTick + twoTo 32 * m.tick ≤ now) :
    (m.catchUp now).lastTick + m.tick ≤ now := by
  have hpos : 0 < twoTo 32 := by decide
  have hcap : min (m.ticksOver now) (twoTo 32 - 1) + 1 ≤ twoTo 32 := by omega
  have hmoved : (m.catchUp now).lastTick ≤
      m.lastTick + m.tick * min (m.ticksOver now) (twoTo 32 - 1) := by
    simp only [catchUp]
    split
    · exact Nat.le_add_right _ _
    · exact Nat.le_refl _
  calc (m.catchUp now).lastTick + m.tick
      ≤ m.lastTick + m.tick * (min (m.ticksOver now) (twoTo 32 - 1) + 1) := by
        rw [Nat.mul_succ]
        omega
    _ ≤ m.lastTick + twoTo 32 * m.tick := by
        rw [Nat.mul_comm]
        exact Nat.add_le_add_left (Nat.mul_le_mul_right _ hcap) _
    _ ≤ now := hgap

/-- However long the gap, the meter stays on its ticks and does not overtake the clock. -/
theorem catchUp_aligned {now k : Nat} (hlast : m.lastTick = created + k * m.tick)
    (hle : m.lastTick ≤ now) :
    (∃ k, (m.catchUp now).lastTick = created + k * m.tick) ∧ (m.catchUp now).lastTick ≤ now := by
  simp only [catchUp]
  split
  · exact ⟨⟨k, hlast⟩, hle⟩
  · refine ⟨⟨k + min (m.ticksOver now) (twoTo 32 - 1), ?_⟩, ?_⟩
    · simp only [hlast]
      rw [Nat.mul_comm m.tick, Nat.add_mul, Nat.add_assoc]
    · have hticks : min (m.ticksOver now) (twoTo 32 - 1) ≤ (now - m.lastTick) / m.tick :=
        Nat.le_trans (Nat.min_le_left _ _) (Nat.mod_le _ _)
      have hfits : m.tick * min (m.ticksOver now) (twoTo 32 - 1) ≤ now - m.lastTick :=
        Nat.le_trans (Nat.mul_le_mul_left _ hticks) (Nat.mul_div_le _ _)
      simp only
      omega

theorem catchUp_tick (m : RateMeter) (now : Nat) : (m.catchUp now).tick = m.tick := by
  simp only [catchUp]
  split <;> rfl

/-! ## What is in the average -/

/-- A call changes the counts of its own tick only. -/
theorem counts_concat {n : Nat} (v : Visit) (hn : n ≤ tickOf tick (visits ++ [v])) :
    counts tick (visits ++ [v]) n = counts tick visits n := by
  refine List.map_congr_left fun i hi => ?_
  have hne : tickOf tick (visits ++ [v]) ≠ i := by
    have := List.mem_range.1 hi
    omega
  rw [markedIn_concat, if_neg hne, Nat.add_zero]

/-- After the tick of the last call nothing is marked. -/
theorem counts_later (tick : Nat) (visits : List Visit) (idle : Nat) :
    counts tick visits (tickOf tick visits + (idle + 1)) =
      counts tick visits (tickOf tick visits) ++
        Stretch.counts ⟨min (markedIn tick visits (tickOf tick visits)) maxUncounted, idle⟩ := by
  rw [counts, List.range_add, List.map_append, List.map_map, List.range_succ_eq_map, List.map_cons,
    Stretch.counts, List.map_map]
  refine congrArg _ (congrArg _ (List.eq_replicate_iff.2 ⟨by simp, fun n hn => ?_⟩))
  obtain ⟨i, -, rfl⟩ := List.mem_map.1 hn
  have hlater : markedIn tick visits (tickOf tick visits + (i + 1)) = 0 := markedIn_later (by omega)
  simp only [Function.comp_apply, Nat.succ_eq_add_one, hlater, Nat.zero_min]

theorem average_concat (tick : Nat) (stretches : List Stretch) (x : Stretch) :
    average tick (stretches ++ [x]) = x.foldInto tick (average tick stretches) := by
  simp [average]

/-! ## One call -/

theorem visited_tick (tick created : Nat) (visits : List Visit) :
    (visited tick created visits).meter.tick = tickLength tick := by
  induction visits using List.reverseRecOn with
  | nil => rfl
  | append_singleton visits v ih =>
    rw [visited_concat, ← ih, Watched.visit]
    split <;> exact catchUp_tick _ _

theorem exact_nil (tick created : Nat) : Exact tick created [] where
  aligned := ⟨0, by simp [visited, ofNanos]⟩
  begun := Nat.le_refl _
  not_over := Nat.lt_add_of_pos_right (tickLength_pos tick)
  uncounted_eq := rfl
  folded_eq := ⟨[], by simp [counts, tickOf, elapsed], rfl⟩

namespace Exact

theorem lastTick_eq (h : Exact tick created visits) :
    (visited tick created visits).meter.lastTick =
      created + tickOf tick visits * tickLength tick := by
  obtain ⟨k, hk⟩ := h.aligned
  have hbegun := h.begun
  have hnot_over := h.not_over
  rw [visited_now, hk] at hbegun hnot_over
  have htick : tickOf tick visits = k :=
    Nat.div_eq_of_lt_le (by omega) (by rw [Nat.succ_mul]; omega)
  rw [hk, htick]

/-- What a meter has in hand when it has caught up for a call that comes soon enough. -/
theorem catchUp (h : Exact tick created visits) {v : Visit}
    (hsoon : tickOf tick (visits ++ [v]) < tickOf tick visits + twoTo 32) :
    let m := (visited tick created visits).meter.catchUp ((visited tick created visits).now + v.wait)
    m.lastTick = created + tickOf tick (visits ++ [v]) * tickLength tick ∧
      m.uncounted = min (markedIn tick visits (tickOf tick (visits ++ [v]))) maxUncounted ∧
      ∃ stretches,
        stretches.flatMap Stretch.counts =
          counts tick (visits ++ [v]) (tickOf tick (visits ++ [v])) ∧
        (m.rate, m.started) = average (tickLength tick) stretches := by
  have hlast := h.lastTick_eq
  have huncounted := h.uncounted_eq
  obtain ⟨stretches, hcounts, haverage⟩ := h.folded_eq
  have hnow : (visited tick created visits).now + v.wait = created + elapsed (visits ++ [v]) := by
    rw [visited_now, elapsed_concat, Nat.add_assoc]
  rw [hnow]
  have htick := visited_tick tick created visits
  generalize (visited tick created visits).meter = m at *
  rw [← htick] at hlast
  have hthis : elapsed (visits ++ [v]) / m.tick = tickOf tick (visits ++ [v]) := by rw [htick]; rfl
  rcases Nat.eq_or_lt_of_le (tickOf_le_concat tick visits v) with hsame | hlater
  · -- no tick is over
    simp only [catchUp_of_same hlast (hthis.trans hsame.symm)]
    rw [← hsame, ← htick, counts_concat v (Nat.le_of_eq hsame)]
    exact ⟨hlast, huncounted, stretches, hcounts, htick ▸ haverage⟩
  · -- the tick of the last call goes into the average, with the empty ones after it
    obtain ⟨idle, hidle⟩ := Nat.exists_eq_add_of_lt hlater
    simp only [catchUp_eq hlast (hthis ▸ hlater) (hthis ▸ hsoon), hthis]
    refine ⟨by rw [htick], by rw [markedIn_later hlater, Nat.zero_min],
      stretches ++ [⟨m.uncounted, idle⟩], ?_, ?_⟩
    · rw [counts_concat v (Nat.le_refl _), hidle, Nat.add_assoc, counts_later, List.flatMap_append,
        hcounts, huncounted, List.flatMap_singleton]
    · have hgone : tickOf tick (visits ++ [v]) - tickOf tick visits - 1 = idle := by omega
      rw [average_concat, ← haverage, hgone, ← htick]
      rfl

/-- A call that comes soon enough keeps a meter exact. -/
theorem visit (h : Exact tick created visits) {v : Visit}
    (hsoon : tickOf tick (visits ++ [v]) < tickOf tick visits + twoTo 32) :
    Exact tick created (visits ++ [v]) := by
  obtain ⟨hlast, huncounted, hfolded⟩ := h.catchUp hsoon
  have hcount : min ((((visited tick created visits).meter.catchUp
      ((visited tick created visits).now + v.wait)).uncounted) + v.call.count) maxUncounted =
      min (markedIn tick (visits ++ [v]) (tickOf tick (visits ++ [v]))) maxUncounted := by
    rw [huncounted, markedIn_concat, if_pos rfl]
    omega
  have hmeter := visit_meter _ v hcount (by omega)
  rw [← visited_concat] at hmeter
  have hlast' : (visited tick created (visits ++ [v])).meter.lastTick =
      created + tickOf tick (visits ++ [v]) * tickLength tick := by
    rw [hmeter, ← hlast]
  refine ⟨⟨_, hlast'⟩, ?_, ?_, by rw [hmeter], by rw [hmeter]; exact hfolded⟩
  · rw [hlast', visited_now]
    exact Nat.add_le_add_left (Nat.div_mul_le_self _ _) _
  · have hnext := Nat.lt_mul_div_succ (elapsed (visits ++ [v])) (tickLength_pos tick)
    rw [Nat.mul_comm] at hnext
    rw [hlast', visited_now, Nat.add_assoc, ← Nat.succ_mul]
    exact Nat.add_lt_add_left hnext _

end Exact

/-- A call that comes too late finds the meter exact and does not leave it so. -/
theorem not_exact_of_gap (h : Exact tick created visits) {v : Visit}
    (hgap : tickOf tick visits + twoTo 32 ≤ tickOf tick (visits ++ [v])) :
    ¬ Exact tick created (visits ++ [v]) := by
  intro hafter
  have hlast := h.lastTick_eq
  have hnot_over := hafter.not_over
  have hlate : (tickOf tick visits + twoTo 32) * tickLength tick ≤ elapsed (visits ++ [v]) :=
    (Nat.le_div_iff_mul_le (tickLength_pos tick)).1 hgap
  have hbehind : ((visited tick created visits).meter.catchUp
      ((visited tick created visits).now + v.wait)).lastTick + tickLength tick ≤
        (visited tick created visits).now + v.wait := by
    have hgap' : (visited tick created visits).meter.lastTick +
        twoTo 32 * (visited tick created visits).meter.tick ≤
          (visited tick created visits).now + v.wait := by
      rw [hlast, visited_tick, visited_now, Nat.add_assoc, Nat.add_assoc, ← Nat.add_mul,
        ← elapsed_concat]
      exact Nat.add_le_add_left hlate _
    have hcaught := catchUp_behind hgap'
    rwa [visited_tick] at hcaught
  rw [visited_concat, Watched.visit] at hnot_over
  split at hnot_over <;> exact absurd hnot_over (Nat.not_lt.2 hbehind)

/-- The last tick of a meter is a tick, and not one to come, whatever the calls. -/
theorem visited_aligned (tick created : Nat) (visits : List Visit) :
    (∃ k, (visited tick created visits).meter.lastTick = created + k * tickLength tick) ∧
      (visited tick created visits).meter.lastTick ≤ (visited tick created visits).now := by
  induction visits using List.reverseRecOn with
  | nil => exact ⟨(exact_nil tick created).aligned, (exact_nil tick created).begun⟩
  | append_singleton visits v ih =>
    obtain ⟨⟨k, hk⟩, hle⟩ := ih
    rw [← visited_tick tick created visits] at hk ⊢
    have hcaught := catchUp_aligned hk (Nat.le_trans hle (Nat.le_add_right _ v.wait))
    rw [visited_concat, Watched.visit]
    split <;> exact hcaught

/-! ## Runs of calls -/

/-- Whatever the tick and the calls, the meter stands in a tick of its own that has begun.  And after
every call it stands in the tick of its clock, holds the events of that tick, and has each tick before
that in its average once, just if every call comes less than `2 ^ 32` ticks after the one before. -/
theorem visited_exact_iff (tick created : Nat) (visits : List Visit) :
    (∀ seen, seen <+: visits →
      (∃ k, (visited tick created seen).meter.lastTick = created + k * tickLength tick) ∧
        (visited tick created seen).meter.lastTick ≤ (visited tick created seen).now) ∧
    ((∀ seen, seen <+: visits → Exact tick created seen) ↔
      ∀ before v, before ++ [v] <+: visits →
        tickOf tick (before ++ [v]) < tickOf tick before + twoTo 32) := by
  refine ⟨fun seen _ => visited_aligned tick created seen, fun h before v hprefix => ?_, fun h => ?_⟩
  · by_contra hgap
    have hbefore := h before ((List.prefix_append before [v]).trans hprefix)
    exact not_exact_of_gap hbefore (Nat.not_lt.1 hgap) (h _ hprefix)
  · intro seen
    induction seen using List.reverseRecOn with
    | nil => exact fun _ => exact_nil tick created
    | append_singleton before v ih =>
      intro hprefix
      exact (ih ((List.prefix_append before [v]).trans hprefix)).visit (h before v hprefix)

/-- A tick of one millisecond, and a gap of `2 ^ 32` ticks and five more.  A thousand events are marked
after it, but the meter stands six ticks behind, and so the rate that is asked for in the same tick has
them folded in already, with five ticks that have let them decay. -/
theorem visited_behind :
    let visits : List Visit := [⟨4294967301000000, .mark 1000⟩, ⟨0, .read⟩]
    let marked := visited nanosPerMilli 0 (visits.take 1)
    let asked := visited nanosPerMilli 0 visits
    marked.meter.lastTick + 6 * nanosPerMilli = marked.now ∧ marked.meter.uncounted = 1000 ∧
      markedIn nanosPerMilli visits (tickOf nanosPerMilli visits) = 1000 ∧
      asked.meter.uncounted = 0 ∧ asked.meter.lastTick = asked.now ∧
      asked.meter.rate = folded ⟨nanosPerMilli, 1000, marked.meter.rate, true, 0⟩ 5 ∧
      ¬ Exact nanosPerMilli 0 visits := by
  intro visits marked asked
  have hticks : marked.meter.ticksOver asked.now = 6 := by decide
  have huncounted : marked.meter.uncounted = 1000 := by decide
  have hstarted : marked.meter.started = true := by decide
  refine ⟨by decide, huncounted, by decide, by decide, by decide, ?_, fun h => ?_⟩
  · have hrate : asked.meter.rate = marked.meter.folded 5 := by
      show (marked.meter.catchUp asked.now).rate = _
      rw [catchUp, hticks]
      rfl
    have hmeter : marked.meter =
        ⟨nanosPerMilli, 1000, marked.meter.rate, true, marked.meter.lastTick⟩ := by
      rw [← huncounted, ← hstarted, ← show marked.meter.tick = nanosPerMilli by decide]
    rw [hrate, hmeter]
    rfl
  · exact absurd h.uncounted_eq (by decide)

end Historian.RateMeter
