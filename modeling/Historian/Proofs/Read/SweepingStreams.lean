import Historian.Proofs.Read.Sweeping
import Historian.Proofs.Read.Source

/-!
# Streams over a store that changes

A stream asks its body, whose sources stand one after the other or are merged, and stops at a limit
of its own.

* `StreamBody.nextInTurn_advances` — sources that are asked in turn, by induction on them.
* `StreamBody.inTurn_sweeps` — what a stream point by point is made of.
* `Stream.sweeps` — a stream sweeps over what its body sweeps over, until it is closed.
-/

set_option autoImplicit false

namespace Historian

variable {σ τ υ : Type} {contents : Nat → Archive} {before : Row → Row → Prop}
  {lost : List Row → Row → Prop} {At : Nat → σ → Prop}

/-- The order of a read point by point: by series, and by time as the direction meets it. -/
def Direction.TurnsTo (d : Direction) (x y : Row) : Prop :=
  x.series < y.series ∨ x.series = y.series ∧ d.compareTimes x.time y.time = .lt

/-- The row has been cut off by a limit on its series. -/
def CutInTurn (before : Row → Row → Prop) (limit : Option Nat) (given : List Row) (r : Row) : Prop :=
  CutOff before limit (given.filter fun x => x.series = r.series) r

theorem CutInTurn.append {limit : Option Nat} {given : List Row} {r : Row}
    (h : CutInTurn before limit given r) (more : List Row) :
    CutInTurn before limit (given ++ more) r := by
  unfold CutInTurn at *
  rw [List.filter_append]
  exact h.append _

/-! ## Sources that are part of something -/

/-- A source as part of something that has nothing else of its own. -/
def Outlook.within (V : Outlook τ) (wrap : τ → υ) : Outlook υ where
  ok i given u := ∃ t, u = wrap t ∧ V.ok i given t
  ahead u r := ∃ t, u = wrap t ∧ V.ahead t r

theorem Outlook.within_ahead {V : Outlook τ} {wrap : τ → υ} (hwrap : Function.Injective wrap)
    (t : τ) (r : Row) : (V.within wrap).ahead (wrap t) r ↔ V.ahead t r := by
  constructor
  · rintro ⟨t', he, hr⟩
    exact hwrap he ▸ hr
  · exact fun hr => ⟨t, rfl, hr⟩

theorem Sweeps.within {skipped cut : List Row → Row → Prop} {pull : τ → StateM σ (Pulled Row × τ)}
    {V : Outlook τ} (h : Sweeps contents before skipped cut pull At V) {wrap : τ → υ}
    (hwrap : Function.Injective wrap) {pull' : υ → StateM σ (Pulled Row × υ)}
    (hpull : ∀ t s item t' s', pull t s = ((item, t'), s') →
      pull' (wrap t) s = ((item, wrap t'), s')) :
    Sweeps contents before skipped cut pull' At (V.within wrap) where
  later := fun ⟨t, ht, hok⟩ => ⟨t, ht, h.later hok⟩
  step {i given u s} hstands hat := by
    obtain ⟨t, rfl, hok⟩ := hstands.ok
    have hahead := V.within_ahead hwrap
    obtain ⟨item, t', s', hnext, hat', hadvance⟩ :=
      h.step ⟨hok, fun x hx r hr => hstands.past x hx r ((hahead t r).2 hr)⟩ hat
    refine ⟨item, wrap t', s', hpull _ _ _ _ _ hnext, hat', ?_⟩
    cases hadvance with
    | value ok ahead stored on kept =>
      refine .value ⟨t', rfl, ok⟩ ((hahead t _).2 ahead) stored (fun r hr => ?_) fun r hheld hr => ?_
      · exact (on r ((hahead t' r).1 hr)).imp_left (hahead t r).2
      · exact (kept r hheld ((hahead t r).1 hr)).imp_right (Or.imp_left (hahead t' r).2)
    | ended kept => exact .ended fun r hheld hr => kept r hheld ((hahead t r).1 hr)

namespace StreamBody

variable {b : Backend σ} {d : Direction} {V : Outlook LimitedCursor} {limit : Option Nat}

/-- The source of a series, which has given the rows of its series. -/
def Turn (V : Outlook LimitedCursor) (i : Nat) (given : List Row)
    (turn : SeriesId × LimitedCursor) : Prop :=
  V.ok i (given.filter fun x => x.series = turn.1) turn.2 ∧ ∀ r, V.ahead turn.2 r → r.series = turn.1

/-- Sources that stand one after the other, by ascending series. -/
def turns (V : Outlook LimitedCursor) : Outlook (List LimitedCursor) where
  ok i given sources := ∃ turns : List (SeriesId × LimitedCursor), turns.map (·.2) = sources ∧
    turns.Pairwise (fun x y => x.1 < y.1) ∧ ∀ turn ∈ turns, Turn V i given turn
  ahead sources r := ∃ c ∈ sources, V.ahead c r

/-- A row of another series is of no account to a source. -/
theorem Turn.of_other {i : Nat} {given : List Row} {turn : SeriesId × LimitedCursor} {x : Row}
    (h : Turn V i given turn) (hx : x.series ≠ turn.1) : Turn V i (given ++ [x]) turn := by
  rw [Turn, List.filter_append]
  simpa [Turn, hx] using h

/-- The first source has given a row. -/
theorem turns_ok_of_value {i : Nat} {given : List Row} {id : SeriesId} {c c' : LimitedCursor}
    {rest : List (SeriesId × LimitedCursor)} {x : Row}
    (hascending : ((id, c) :: rest).Pairwise fun x y => x.1 < y.1)
    (hturns : ∀ turn ∈ (id, c) :: rest, Turn V i given turn) (hx : V.ahead c x)
    (ok : V.ok i ((given.filter fun x => x.series = id) ++ [x]) c')
    (on : ∀ r, V.ahead c' r → V.ahead c r) :
    (turns V).ok i (given ++ [x]) (c' :: rest.map (·.2)) := by
  obtain ⟨hid, hrest⟩ := List.pairwise_cons.1 hascending
  have hown := (hturns (id, c) List.mem_cons_self).2
  have hseries : x.series = id := hown x hx
  refine ⟨(id, c') :: rest, rfl, List.pairwise_cons.2 ⟨hid, hrest⟩, fun turn ht => ?_⟩
  rcases List.mem_cons.1 ht with rfl | ht
  · refine ⟨?_, fun r hr => hown r (on r hr)⟩
    rw [List.filter_append]
    simpa [hseries] using ok
  · have hother : x.series ≠ turn.1 := fun he => by
      have hlt := hid turn ht
      rw [← he, hseries] at hlt
      exact absurd hlt (UInt64.lt_irrefl id)
    exact (hturns turn (List.mem_cons_of_mem _ ht)).of_other hother

/-- Sources that are asked in turn: one that has ended is asked no more. -/
theorem nextInTurn_advances
    (hsrc : Sweeps contents d.TurnsTo (fun _ _ => False) (CutOff d.TurnsTo limit)
      (LimitedCursor.next b) At V) {i : Nat} {given : List Row}
    {turns' : List (SeriesId × LimitedCursor)} :
    ∀ {s : σ}, turns'.Pairwise (fun x y => x.1 < y.1) → (∀ turn ∈ turns', Turn V i given turn) →
      (∀ x ∈ given, ∀ r, (turns V).ahead (turns'.map (·.2)) r → d.TurnsTo x r) → At i s →
      ∃ item sources s', nextInTurn b (turns'.map (·.2)) s = ((item, sources), s') ∧ At i s' ∧
        Advance contents d.TurnsTo (CutInTurn d.TurnsTo limit) (CutInTurn d.TurnsTo limit)
          (turns V) i given (turns'.map (·.2)) item sources := by
  induction turns' with
  | nil =>
    intro s _ _ _ hat
    exact ⟨.ended, [], s, rfl, hat, .ended fun r _ ⟨c, hc, _⟩ => absurd hc (by simp)⟩
  | cons turn rest ih =>
    intro s hascending hturns hpast hat
    obtain ⟨id, c⟩ := turn
    obtain ⟨hid, hrest⟩ := List.pairwise_cons.1 hascending
    obtain ⟨hok, hown⟩ := hturns (id, c) List.mem_cons_self
    have hfirst : ∀ r, V.ahead c r → (turns V).ahead (((id, c) :: rest).map (·.2)) r :=
      fun r hr => ⟨c, by simp, hr⟩
    have hothers : ∀ r, (turns V).ahead (rest.map (·.2)) r →
        (turns V).ahead (((id, c) :: rest).map (·.2)) r :=
      fun r ⟨c', hc', hr⟩ => ⟨c', List.mem_cons_of_mem _ hc', hr⟩
    have hcursor : V.Stands d.TurnsTo i (given.filter fun x => x.series = id) c :=
      ⟨hok, fun x hx r hr => hpast x ((List.mem_filter.1 hx).1) r (hfirst r hr)⟩
    obtain ⟨item, c', s', hpull, hat', hadvance⟩ := hsrc.step hcursor hat
    cases hadvance with
    | @value x _ ok ahead stored on kept =>
      have hnew := turns_ok_of_value hascending hturns ahead ok fun r hr => (on r hr).1
      refine ⟨.value x, _, s', by simp only [List.map_cons, nextInTurn, hpull], hat',
        .value hnew (hfirst x ahead) stored ?_ ?_⟩
      · rintro r ⟨c'', hc'', hr⟩
        rcases List.mem_cons.1 hc'' with rfl | hc''
        · exact (on r hr).imp_left (hfirst r)
        · refine ⟨hothers r ⟨c'', hc'', hr⟩, .inl ?_⟩
          obtain ⟨turn, ht, rfl⟩ := List.mem_map.1 hc''
          rw [hown x ahead, (hturns turn (List.mem_cons_of_mem _ ht)).2 r hr]
          exact hid turn ht
      · rintro r hheld ⟨c'', hc'', hr⟩
        rcases List.mem_cons.1 hc'' with rfl | hc''
        · rcases kept r hheld hr with rfl | hr | hgone
          · exact .inl rfl
          · exact .inr (.inl ⟨c', List.mem_cons_self, hr⟩)
          · exact hgone.elim
        · exact .inr (.inl ⟨c'', List.mem_cons_of_mem _ hc'', hr⟩)
    | ended kept =>
      obtain ⟨item, sources, s'', hnext, hat'', hadvance⟩ :=
        ih hrest (fun turn ht => hturns turn (List.mem_cons_of_mem _ ht))
          (fun x hx r hr => hpast x hx r (hothers r hr)) hat'
      refine ⟨item, sources, s'', by simp only [List.map_cons, nextInTurn, hpull, hnext], hat'',
        hadvance.of_fetched hothers ?_⟩
      rintro r hheld ⟨c'', hc'', hr⟩
      rcases List.mem_cons.1 hc'' with rfl | hc''
      · have hgone : CutInTurn d.TurnsTo limit given r := by
          rw [CutInTurn, hown r hr]
          exact kept r hheld hr
        exact .inr ⟨hgone, fun x => hgone.append [x]⟩
      · exact .inl ⟨c'', hc'', hr⟩

/-- Sources of ascending series that are asked in turn sweep over one series after the other. -/
theorem nextInTurn_sweeps
    (hsrc : Sweeps contents d.TurnsTo (fun _ _ => False) (CutOff d.TurnsTo limit)
      (LimitedCursor.next b) At V) :
    Sweeps contents d.TurnsTo (CutInTurn d.TurnsTo limit) (CutInTurn d.TurnsTo limit)
      (nextInTurn b) At (turns V) where
  later := fun ⟨turns', hmap, hascending, hturns⟩ =>
    ⟨turns', hmap, hascending, fun turn ht => (hturns turn ht).imp_left hsrc.later⟩
  step {i given sources s} hstands hat := by
    obtain ⟨turns', rfl, hascending, hturns⟩ := hstands.ok
    exact nextInTurn_advances hsrc hascending hturns hstands.past hat

theorem inTurn_injective : Function.Injective inTurn := fun _ _ h => by injection h

theorem merged_injective : Function.Injective (merged d) := fun _ _ h => by injection h

theorem inTurn_sweeps
    (hsrc : Sweeps contents d.TurnsTo (fun _ _ => False) (CutOff d.TurnsTo limit)
      (LimitedCursor.next b) At V) :
    Sweeps contents d.TurnsTo (CutInTurn d.TurnsTo limit) (CutInTurn d.TurnsTo limit)
      (StreamBody.next b) At ((turns V).within .inTurn) := by
  refine (nextInTurn_sweeps hsrc).within inTurn_injective ?_
  intro sources s item sources' s' h
  simp only [next, h]

theorem merged_sweeps {V : Outlook (Merge LimitedCursor Row)}
    (hmerge : Sweeps contents before lost lost
      (Merge.next d.compareRows (LimitedCursor.next b)) At V) :
    Sweeps contents before lost lost (StreamBody.next b) At (V.within (.merged d)) := by
  refine hmerge.within merged_injective ?_
  intro m s item m' s' h
  simp only [next, h]

end StreamBody

namespace Stream

variable {b : Backend σ} {B : Outlook StreamBody}

/-- An open stream is seen as its body is, and counts what it gives. -/
def outlook (B : Outlook StreamBody) (total : Option Nat) : Outlook Stream where
  ok i given t := ∃ body, t.body = some body ∧ B.ok i given body ∧
    t.remaining = total.map (· - given.length)
  ahead t r := ∃ body, t.body = some body ∧ B.ahead body r

/-- What a stream loses, its body has lost or its own limit cut off. -/
def Lost (before : Row → Row → Prop) (lost : List Row → Row → Prop) (total : Option Nat)
    (given : List Row) (r : Row) : Prop :=
  lost given r ∨ CutOff before total given r

/-- A stream sweeps over what its body sweeps over, until its own limit is reached. -/
theorem sweeps (total : Option Nat) (hb : ∀ i, b.ReadsFrom (contents i) (At i))
    (h : Sweeps contents before lost lost (StreamBody.next b) At B) :
    Sweeps contents before (Lost before lost total) (Lost before lost total) (Stream.next b) At
      (outlook B total) where
  later := fun ⟨body, hbody, hok, hleft⟩ => ⟨body, hbody, h.later hok, hleft⟩
  step {i given t s} hstands hat := by
    obtain ⟨body, hbody, hok, hleft⟩ := hstands.ok
    have hahead : ∀ (t : Stream) body, t.body = some body →
        ∀ r, (outlook B total).ahead t r ↔ B.ahead body r := by
      intro t body hbody r
      exact ⟨fun ⟨body', he, hr⟩ => Option.some.inj (hbody.symm.trans he) ▸ hr,
        fun hr => ⟨body, hbody, hr⟩⟩
    have hstandsBody : B.Stands before i given body :=
      ⟨hok, fun x hx r hr => hstands.past x hx r ⟨body, hbody, hr⟩⟩
    by_cases hzero : t.remaining = some 0
    · have hat' := close_intact (hb i) t hat
      rcases hclose : t.close b s with ⟨t', s'⟩
      rw [hclose] at hat'
      refine ⟨.ended, t', s', by simp only [next, hzero, if_true, hclose], hat',
        .ended fun r _ hr => .inr ?_⟩
      rw [hzero] at hleft
      obtain ⟨l, rfl, hl⟩ := Option.map_eq_some_iff.1 hleft.symm
      exact hstands.cutOff (by omega) hr
    · obtain ⟨item, body', s', hnext, hat', hadvance⟩ := h.step hstandsBody hat
      cases hadvance with
      | @value x _ ok ahead stored on kept =>
        refine ⟨.value x, { t with body := some body', remaining := t.remaining.map (· - 1) }, s',
          by simp only [next, hzero, if_false, hbody, hnext], hat',
          .value ⟨body', rfl, ok, ?_⟩ ⟨body, hbody, ahead⟩ stored (fun r hr => ?_)
            fun r hheld hr => ?_⟩
        · rw [hleft, Option.map_map, List.length_append]
          rfl
        · exact (on r ((hahead _ body' rfl r).1 hr)).imp_left (hahead t body hbody r).2
        · exact (kept r hheld ((hahead t body hbody r).1 hr)).imp_right
            (Or.imp (hahead _ body' rfl r).2 .inl)
      | ended kept =>
        have hat'' := close_intact (hb i) { t with body := some body' } hat'
        rcases hclose : close b { t with body := some body' } s' with ⟨t', s''⟩
        rw [hclose] at hat''
        refine ⟨.ended, t', s'', by simp only [next, hzero, if_false, hbody, hnext, hclose], hat'',
          .ended fun r hheld hr => .inl ?_⟩
        exact kept r hheld ((hahead t body hbody r).1 hr)

/-- A closed stream that may give no more has nothing to give. -/
theorem deliver_empty (b : Backend σ) (react : Reaction σ) (calls n : Nat) (s : σ) :
    (deliverRows (Stream.next b) react calls n .empty s).1 = .nothing := by
  cases calls <;> rfl

end Stream

end Historian
