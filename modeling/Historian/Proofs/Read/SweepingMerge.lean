import Historian.Proofs.Read.Merging
import Historian.Proofs.Read.Sweeping

/-!
# Merging sources over a store that changes

The head of a source was held when it was fetched, perhaps long before it is delivered, and what the
source has still to come to lies behind it.  So the least head goes before all that lies ahead of the
merge, whatever has become of the store.

* `Merge.deliver_advances` — one row is delivered, and its source asked for its next head.
* `Merge.prime_fetched` — the first heads, by induction on the sources; `Merge.exists_primed` — the
  merge that has them.
* `Merge.sweeps` — a merge of sources that sweep over places of their own sweeps over all of them.
-/

set_option autoImplicit false

namespace Historian.Merge

variable {σ τ : Type}

/-- The place of a head among the others is the only thing that is decided when it is put in. -/
theorem insertHead_perm {α : Type} (cmp : α → α → Ordering) (i : Nat) (a : α)
    (heads : List (Nat × α)) : (insertHead cmp i a heads).Perm ((i, a) :: heads) := by
  induction heads with
  | nil => exact .refl _
  | cons h rest ih =>
    rw [insertHead]
    split
    · exact .refl _
    · exact (ih.cons h).trans (.swap _ _ rest)

/-- A head that is put in at a free place. -/
theorem nodup_insertHead {α : Type} (cmp : α → α → Ordering) {i : Nat} (a : α)
    {heads : List (Nat × α)} (hplaces : (heads.map (·.1)).Nodup)
    (hfree : ∀ j x, (j, x) ∈ heads → j ≠ i) : ((insertHead cmp i a heads).map (·.1)).Nodup := by
  have hperm := (insertHead_perm cmp i a heads).map (·.1)
  refine hperm.nodup_iff.2 (List.nodup_cons.2 ⟨fun hi => ?_, hplaces⟩)
  obtain ⟨⟨j, x⟩, hx, hj⟩ := List.mem_map.1 hi
  exact hfree j x hx hj

section

variable (contents : Nat → Archive) (cmp : Row → Row → Ordering) (own : Nat → Row → Prop)
  (V : Outlook τ)

/-- The source at place `j` after it has given its head, of a merge that has given `n` rows: it has
given no more than one row that the merge has not. -/
structure Headed (i n j : Nat) (x : Row) (t : τ) : Prop where
  head : own j x
  stored : ∃ k ≤ i, (contents k).Holds x
  stands : ∃ rows, V.Stands (fun x y => cmp x y = .lt) i rows t ∧ rows.length ≤ n + 1
  own : ∀ r, V.ahead t r → own j r
  beyond : ∀ r, V.ahead t r → cmp x r = .lt

/-- A merge that has fetched the first heads and has given `n` rows. -/
structure Underway (i n : Nat) (m : Merge τ Row) : Prop where
  finished : m.finished = false
  parked : m.parked = none
  primed : m.primed = true
  ordered : Ordered cmp m.heads
  places : (m.heads.map (·.1)).Nodup
  headed : ∀ j x, (j, x) ∈ m.heads →
    ∃ t, m.sources[j]? = some t ∧ Headed contents cmp own V i n j x t

/-- A merge that has asked for nothing yet, or that is under way. -/
inductive Ready (i : Nat) : List Row → Merge τ Row → Prop
  | unasked {sources : List τ} (ok : ∀ (j : Nat) t, sources[j]? = some t → V.ok i [] t)
      (own : ∀ (j : Nat) t, sources[j]? = some t → ∀ r, V.ahead t r → own j r) :
      Ready i [] (new sources)
  | underway {given : List Row} {m : Merge τ Row}
      (h : Underway contents cmp own V i given.length m) : Ready i given m

/-- The row is one of some heads or lies ahead of the source of one. -/
def AheadOf (V : Outlook τ) (sources : List τ) (heads : List (Nat × Row)) (r : Row) : Prop :=
  ∃ j x, (j, x) ∈ heads ∧ (r = x ∨ ∃ t, sources[j]? = some t ∧ V.ahead t r)

/-- What lies ahead of a merge; before the first call, it lies ahead of a source. -/
def Ahead (V : Outlook τ) (m : Merge τ Row) (r : Row) : Prop :=
  if m.primed then AheadOf V m.sources m.heads r else ∃ t ∈ m.sources, V.ahead t r

/-- How a merge is seen, if its sources are seen as `V`. -/
def outlook : Outlook (Merge τ Row) where
  ok := Ready contents cmp own V
  ahead := Ahead V

end

variable {contents : Nat → Archive} {cmp : Row → Row → Ordering} {own : Nat → Row → Prop}
  {V : Outlook τ} {cut : List Row → Row → Prop} {limit : Option Nat}
  {At : Nat → σ → Prop} {pull : τ → StateM σ (Pulled Row × τ)}

theorem Headed.mono {i i' n n' j : Nat} {x : Row} {t : τ} (h : Headed contents cmp own V i n j x t)
    (hi : i ≤ i') (hn : n ≤ n') (hok : ∀ rows, V.ok i rows t → V.ok i' rows t) :
    Headed contents cmp own V i' n' j x t where
  head := h.head
  stored := h.stored.imp fun k hk => ⟨Nat.le_trans hk.1 hi, hk.2⟩
  stands := h.stands.imp fun rows ⟨hs, hlength⟩ => ⟨⟨hok rows hs.ok, hs.past⟩, by omega⟩
  own := h.own
  beyond := h.beyond

theorem ahead_of_primed {m : Merge τ Row} (h : m.primed = true) (r : Row) :
    Ahead V m r ↔ AheadOf V m.sources m.heads r := by
  rw [Ahead, if_pos h]

/-- What a source has given becomes its head. -/
theorem Headed.of_given {i n j : Nat} {rows : List Row} {x : Row} {t t' : τ}
    (hstands : V.Stands (fun x y => cmp x y = .lt) i rows t) (hlength : rows.length ≤ n)
    (hown : ∀ r, V.ahead t r → own j r) (ok : V.ok i (rows ++ [x]) t') (ahead : V.ahead t x)
    (stored : ∃ k ≤ i, (contents k).Holds x)
    (on : ∀ r, V.ahead t' r → V.ahead t r ∧ cmp x r = .lt) :
    Headed contents cmp own V i n j x t' where
  head := hown x ahead
  stored := stored
  stands := by
    refine ⟨rows ++ [x], hstands.next ok on, ?_⟩
    rw [List.length_append, List.length_singleton]
    omega
  own r hr := hown r (on r hr).1
  beyond r hr := (on r hr).2

/-! ## One row -/

theorem aheadOf_cons {sources : List τ} {rest : List (Nat × Row)} {j : Nat} {x : Row} {t : τ}
    (hget : sources[j]? = some t) {r : Row} :
    AheadOf V sources ((j, x) :: rest) r ↔ r = x ∨ V.ahead t r ∨ AheadOf V sources rest r := by
  constructor
  · rintro ⟨k, y, hmem, hr⟩
    rcases List.mem_cons.1 hmem with he | hmem
    · rw [Prod.mk.injEq] at he
      obtain ⟨rfl, rfl⟩ := he
      rcases hr with rfl | ⟨u, hu, hr⟩
      · exact .inl rfl
      · obtain rfl := Option.some.inj (hget.symm.trans hu)
        exact .inr (.inl hr)
    · exact .inr (.inr ⟨k, y, hmem, hr⟩)
  · rintro (rfl | hr | ⟨k, y, hmem, hr⟩)
    · exact ⟨j, r, List.mem_cons_self, .inl rfl⟩
    · exact ⟨j, x, List.mem_cons_self, .inr ⟨t, hget, hr⟩⟩
    · exact ⟨k, y, List.mem_cons_of_mem _ hmem, hr⟩

/-- The order of the heads is of no account to what lies ahead of them. -/
theorem aheadOf_perm {sources : List τ} {heads heads' : List (Nat × Row)}
    (h : heads.Perm heads') {r : Row} : AheadOf V sources heads r ↔ AheadOf V sources heads' r := by
  simp only [AheadOf, h.mem_iff]

/-- What becomes of another source is of no account either. -/
theorem aheadOf_set {sources : List τ} {heads : List (Nat × Row)} {j : Nat}
    (h : ∀ k y, (k, y) ∈ heads → k ≠ j) (t : τ) {r : Row} :
    AheadOf V (sources.set j t) heads r ↔ AheadOf V sources heads r := by
  unfold AheadOf
  refine exists_congr fun k => exists_congr fun y => and_congr_right fun hmem => ?_
  rw [List.getElem?_set_ne (h k y hmem).symm]

namespace Underway

variable {i n : Nat} {m : Merge τ Row} {j : Nat} {x : Row} {rest : List (Nat × Row)}

/-- The first head goes before the others, which are at other places. -/
theorem first_lt (h : Underway contents cmp own V i n m) (hheads : m.heads = (j, x) :: rest)
    (hdisjoint : ∀ j k x y, j ≠ k → own j x → own k y → cmp x y ≠ .eq) :
    ∀ k y, (k, y) ∈ rest → k ≠ j ∧ cmp x y = .lt := by
  intro k y hmem
  have hordered := h.ordered
  have hplaces := h.places
  rw [hheads] at hordered hplaces
  have hkj : k ≠ j := by
    rintro rfl
    exact (List.nodup_cons.1 hplaces).1 (List.mem_map.2 ⟨(k, y), hmem, rfl⟩)
  obtain ⟨t, -, hx⟩ := h.headed j x (hheads ▸ List.mem_cons_self)
  obtain ⟨u, -, hy⟩ := h.headed k y (hheads ▸ List.mem_cons_of_mem _ hmem)
  have hbefore := goesBefore_iff.1 ((List.pairwise_cons.1 hordered).1 (k, y) hmem)
  exact ⟨hkj, hbefore.resolve_right fun heq => hdisjoint j k x y hkj.symm hx.head hy.head heq.1⟩

/-- All that lies ahead of the merge but the first head itself goes after it. -/
theorem first_lt_ahead [Std.TransCmp cmp] (h : Underway contents cmp own V i n m)
    (hheads : m.heads = (j, x) :: rest)
    (hdisjoint : ∀ j k x y, j ≠ k → own j x → own k y → cmp x y ≠ .eq) {r : Row}
    (hr : AheadOf V m.sources rest r) : cmp x r = .lt := by
  obtain ⟨k, y, hmem, hr⟩ := hr
  have hxy := (h.first_lt hheads hdisjoint k y hmem).2
  rcases hr with rfl | ⟨t, ht, hr⟩
  · exact hxy
  · obtain ⟨u, hu, hy⟩ := h.headed k y (hheads ▸ List.mem_cons_of_mem _ hmem)
    obtain rfl := Option.some.inj (hu.symm.trans ht)
    exact Std.TransCmp.lt_trans hxy (hy.beyond r hr)

/-- The merge after its first head was taken and the source of it asked. -/
theorem afterTake (h : Underway contents cmp own V i n m) (hheads : m.heads = (j, x) :: rest)
    (hrest : ∀ k y, (k, y) ∈ rest → k ≠ j) {t : τ} {heads : List (Nat × Row)}
    (hordered : Ordered cmp heads) (hplaces : (heads.map (·.1)).Nodup)
    (hmem : ∀ k y, (k, y) ∈ heads →
      (k, y) ∈ rest ∨ k = j ∧ Headed contents cmp own V i (n + 1) j y t) :
    Underway contents cmp own V i (n + 1) { m with sources := m.sources.set j t, heads } where
  finished := h.finished
  parked := h.parked
  primed := h.primed
  ordered := hordered
  places := hplaces
  headed k y hk := by
    rcases hmem k y hk with hk | ⟨rfl, hy⟩
    · obtain ⟨u, hu, hy⟩ := h.headed k y (hheads ▸ List.mem_cons_of_mem _ hk)
      refine ⟨u, ?_, hy.mono (Nat.le_refl i) (Nat.le_succ n) fun _ hok => hok⟩
      rw [List.getElem?_set_ne (hrest k y hk).symm]
      exact hu
    · obtain ⟨u, hu, -⟩ := h.headed k x (hheads ▸ List.mem_cons_self)
      exact ⟨t, List.getElem?_set_self (List.getElem?_eq_some_iff.1 hu).1, hy⟩

/-- What lies ahead once the source of the first head has ended. -/
theorem ahead_drop (h : Underway contents cmp own V i n m) (hrest : ∀ k y, (k, y) ∈ rest → k ≠ j)
    (t' : τ) (r : Row) :
    Ahead V { m with sources := m.sources.set j t', heads := rest } r ↔
      AheadOf V m.sources rest r :=
  (ahead_of_primed (m := { m with sources := m.sources.set j t', heads := rest }) h.primed r).trans
    (aheadOf_set hrest t')

/-- What lies ahead once the source of the first head has given another one. -/
theorem ahead_insert (h : Underway contents cmp own V i n m)
    (hrest : ∀ k y, (k, y) ∈ rest → k ≠ j) {t : τ} (hget : m.sources[j]? = some t) (t' : τ) (y r : Row) :
    Ahead V { m with sources := m.sources.set j t', heads := insertHead cmp j y rest } r ↔
      r = y ∨ V.ahead t' r ∨ AheadOf V m.sources rest r := by
  have hset : (m.sources.set j t')[j]? = some t' :=
    List.getElem?_set_self (List.getElem?_eq_some_iff.1 hget).1
  refine (ahead_of_primed (m := { m with
    sources := m.sources.set j t', heads := insertHead cmp j y rest }) h.primed r).trans ?_
  rw [aheadOf_perm (insertHead_perm cmp j y rest), aheadOf_cons hset, aheadOf_set hrest t']

end Underway

/-- What a limit of a source has cut off, the same limit of the merge cuts off as well: the merge has
given no fewer rows. -/
theorem cutOff_behind {rows given : List Row} {x r : Row}
    (hcut : ∀ rows r, cut rows r → ∃ l, limit = some l ∧ l ≤ rows.length) (hr : cut rows r)
    (hlength : rows.length ≤ given.length + 1) (hpast : ∀ y ∈ given, cmp y r = .lt)
    (hx : cmp x r = .lt) : CutOff (fun x y => cmp x y = .lt) limit (given ++ [x]) r := by
  obtain ⟨l, rfl, hl⟩ := hcut rows r hr
  refine ⟨l, rfl, ?_, fun y hy => ?_⟩
  · rw [List.length_append, List.length_singleton]
    omega
  · rcases List.mem_append.1 (List.mem_of_mem_take hy) with hy | hy
    · exact hpast y hy
    · obtain rfl := List.mem_singleton.1 hy
      exact hx

/-- A merge under way delivers its first head.  What is lost with that lies behind a source that has
ended; it can have been cut only by a limit that the merge has reached as well. -/
theorem deliver_advances [Std.TransCmp cmp]
    (hsrc : Sweeps contents (fun x y => cmp x y = .lt) (fun _ _ => False) cut pull At V)
    (hdisjoint : ∀ j k x y, j ≠ k → own j x → own k y → cmp x y ≠ .eq)
    (hcut : ∀ rows r, cut rows r → ∃ l, limit = some l ∧ l ≤ rows.length)
    {i : Nat} {given : List Row} {m : Merge τ Row} {s : σ}
    (h : Underway contents cmp own V i given.length m)
    (hpast : ∀ x ∈ given, ∀ r, Ahead V m r → cmp x r = .lt) (hat : At i s) :
    ∃ item m' s', m.deliver cmp pull s = ((item, m'), s') ∧ At i s' ∧
      Advance contents (fun x y => cmp x y = .lt) (CutOff (fun x y => cmp x y = .lt) limit)
        (CutOff (fun x y => cmp x y = .lt) limit) (outlook contents cmp own V) i given m item m' := by
  have hahead := ahead_of_primed (V := V) h.primed
  cases hheads : m.heads with
  | nil =>
    refine ⟨.ended, _, s, by simp only [deliver, hheads]; rfl, hat, .ended fun r _ hr => ?_⟩
    obtain ⟨j, x, hmem, -⟩ := (hahead r).1 hr
    simp [hheads] at hmem
  | cons first rest =>
    obtain ⟨j, x⟩ := first
    obtain ⟨t, hget, hx⟩ := h.headed j x (hheads ▸ List.mem_cons_self)
    obtain ⟨rows, hstands, hlength⟩ := hx.stands
    have hrest : ∀ k y, (k, y) ∈ rest → k ≠ j := fun k y hk =>
      (h.first_lt hheads hdisjoint k y hk).1
    have hsplit : ∀ r, Ahead V m r ↔ r = x ∨ V.ahead t r ∨ AheadOf V m.sources rest r := fun r => by
      rw [hahead, hheads, aheadOf_cons hget]
    have hordered : Ordered cmp rest := (List.pairwise_cons.1 (hheads ▸ h.ordered)).2
    have hplaces : (rest.map (·.1)).Nodup := (List.nodup_cons.1 (hheads ▸ h.places)).2
    have hbehind : ∀ r, AheadOf V m.sources rest r → cmp x r = .lt := fun r hr =>
      h.first_lt_ahead hheads hdisjoint hr
    have hgiven : (given ++ [x]).length = given.length + 1 := by simp
    obtain ⟨item, t', s', hpull, hat', hadvance⟩ := hsrc.step hstands hat
    cases hadvance with
    | ended kept =>
      have hnew := h.afterTake hheads hrest (t := t') hordered hplaces fun k y hk => .inl hk
      have hnewAhead := h.ahead_drop hrest t'
      refine ⟨.value x, _, s', by simp only [deliver, hheads, hget, hpull], hat',
        .value (.underway (hgiven ▸ hnew)) ((hsplit x).2 (.inl rfl)) hx.stored ?_ ?_⟩
      · intro r hr
        have hr := (hnewAhead r).1 hr
        exact ⟨(hsplit r).2 (.inr (.inr hr)), hbehind r hr⟩
      · intro r hheld hr
        rcases (hsplit r).1 hr with rfl | hback | hother
        · exact .inl rfl
        · exact .inr (.inr (cutOff_behind hcut (kept r hheld hback) hlength
            (fun y hy => hpast y hy r hr) (hx.beyond r hback)))
        · exact .inr (.inl ((hnewAhead r).2 hother))
    | @value y _ ok ahead stored on kept =>
      have hy := Headed.of_given hstands hlength hx.own ok ahead stored on
      have hnew := h.afterTake hheads hrest (t := t') (hordered.insertHead y hrest)
        (nodup_insertHead cmp y hplaces hrest) fun k z hk => by
          rcases mem_insertHead.1 hk with he | hk
          · rw [Prod.mk.injEq] at he
            obtain ⟨rfl, rfl⟩ := he
            exact .inr ⟨rfl, hy⟩
          · exact .inl hk
      have hnewAhead := h.ahead_insert hrest hget t' y
      refine ⟨.value x, _, s', by simp only [deliver, hheads, hget, hpull], hat',
        .value (.underway (hgiven ▸ hnew)) ((hsplit x).2 (.inl rfl)) hx.stored ?_ ?_⟩
      · intro r hr
        rcases (hnewAhead r).1 hr with rfl | hback | hother
        · exact ⟨(hsplit r).2 (.inr (.inl ahead)), hx.beyond r ahead⟩
        · have hback := (on r hback).1
          exact ⟨(hsplit r).2 (.inr (.inl hback)), hx.beyond r hback⟩
        · exact ⟨(hsplit r).2 (.inr (.inr hother)), hbehind r hother⟩
      · intro r hheld hr
        rcases (hsplit r).1 hr with rfl | hback | hother
        · exact .inl rfl
        · refine .inr (.inl ((hnewAhead r).2 ?_))
          exact (kept r hheld hback).imp_right fun hr => .inl (hr.resolve_right id)
        · exact .inr (.inl ((hnewAhead r).2 (.inr (.inr hother))))

/-! ## The first heads -/

/-- What has come of a source that was asked for its first head, if these heads were found. -/
structure Fetched (contents : Nat → Archive) (cmp : Row → Row → Ordering) (own : Nat → Row → Prop)
    (V : Outlook τ) (cut : List Row → Row → Prop) (i j : Nat) (t t' : τ) (heads : List (Nat × Row)) :
    Prop where
  headed : ∀ x, (j, x) ∈ heads → Headed contents cmp own V i 0 j x t'
  back : ∀ x, (j, x) ∈ heads → V.ahead t x ∧ ∀ r, V.ahead t' r → V.ahead t r
  kept : ∀ r, (contents i).Holds r → V.ahead t r →
    cut [] r ∨ ∃ x, (j, x) ∈ heads ∧ (r = x ∨ V.ahead t' r)

theorem Fetched.congr {i j : Nat} {t t' : τ} {heads heads' : List (Nat × Row)}
    (h : Fetched contents cmp own V cut i j t t' heads)
    (hsame : ∀ x, (j, x) ∈ heads' ↔ (j, x) ∈ heads) :
    Fetched contents cmp own V cut i j t t' heads' where
  headed x hx := h.headed x ((hsame x).1 hx)
  back x hx := h.back x ((hsame x).1 hx)
  kept r hheld hr := (h.kept r hheld hr).imp_right fun ⟨x, hx, hr⟩ => ⟨x, (hsame x).2 hx, hr⟩

/-- A source that is asked for its first head: what comes of that is settled when the head has been
put in, and the next source is turned to. -/
theorem fetch_head [Std.TransCmp cmp]
    (hsrc : Sweeps contents (fun x y => cmp x y = .lt) (fun _ _ => False) cut pull At V) {i : Nat}
    {place : Nat} {heads : List (Nat × Row)} {t : τ} {s : σ} (hat : At i s) (hok : V.ok i [] t)
    (hown : ∀ r, V.ahead t r → own place r) (hordered : Ordered cmp heads)
    (hplaces : (heads.map (·.1)).Nodup) (hbelow : ∀ j x, (j, x) ∈ heads → j < place) :
    ∃ t' heads' s', At i s' ∧
      (∀ sources, prime cmp pull place (t :: sources) heads s =
        match prime cmp pull (place + 1) sources heads' s' with
        | ((e, sources', heads''), s'') => ((e, t' :: sources', heads''), s'')) ∧
      Ordered cmp heads' ∧ (heads'.map (·.1)).Nodup ∧ (∀ j x, (j, x) ∈ heads' → j < place + 1) ∧
      (∀ j x, j < place → ((j, x) ∈ heads' ↔ (j, x) ∈ heads)) ∧
      Fetched contents cmp own V cut i place t t' heads' := by
  have hstands : V.Stands (fun x y => cmp x y = .lt) i [] t := .fresh hok
  have hne : ∀ j y, (j, y) ∈ heads → j ≠ place := fun j y hy => Nat.ne_of_lt (hbelow j y hy)
  obtain ⟨item, t', s', hpull, hat', hadvance⟩ := hsrc.step hstands hat
  cases hadvance with
  | ended kept =>
    have hnone : ∀ x, (place, x) ∉ heads := fun x hx => hne place x hx rfl
    exact ⟨t', heads, s', hat', fun sources => by simp only [prime, hpull]; rfl, hordered, hplaces,
      fun j x hx => Nat.lt_succ_of_lt (hbelow j x hx), fun _ _ _ => .rfl,
      fun x hx => absurd hx (hnone x), fun x hx => absurd hx (hnone x),
      fun r hheld hr => .inl (kept r hheld hr)⟩
  | @value x _ ok ahead stored on kept =>
    have hmem : ∀ j y, (j, y) ∈ insertHead cmp place x heads ↔
        (j = place ∧ y = x) ∨ (j, y) ∈ heads := fun j y => by
      rw [mem_insertHead, Prod.mk.injEq]
    have hself : ∀ y, (place, y) ∈ insertHead cmp place x heads → y = x := fun y hy =>
      ((hmem place y).1 hy).elim (·.2) fun hy => absurd rfl (hne place y hy)
    refine ⟨t', insertHead cmp place x heads, s', hat', fun sources => by simp only [prime, hpull]; rfl,
      hordered.insertHead x hne, nodup_insertHead cmp x hplaces hne, fun j y hy => ?_,
      fun j y hj => ?_, fun y hy => ?_, fun y hy => ?_, fun r hheld hr => .inr ⟨x, ?_, ?_⟩⟩
    · rcases (hmem j y).1 hy with ⟨rfl, -⟩ | hy
      · exact Nat.lt_succ_self j
      · exact Nat.lt_succ_of_lt (hbelow j y hy)
    · rw [hmem, or_iff_right fun he => Nat.ne_of_lt hj he.1]
    · exact hself y hy ▸ Headed.of_given hstands (Nat.le_refl 0) hown ok ahead stored on
    · exact hself y hy ▸ ⟨ahead, fun r hr => (on r hr).1⟩
    · exact (hmem place x).2 (.inl ⟨rfl, rfl⟩)
    · exact (kept r hheld hr).imp_right fun hr => hr.resolve_right id

/-- Asking every source once fetches its head, or what was ahead of it is cut. -/
theorem prime_fetched [Std.TransCmp cmp]
    (hsrc : Sweeps contents (fun x y => cmp x y = .lt) (fun _ _ => False) cut pull At V) {i : Nat}
    {sources : List τ} :
    ∀ (place : Nat) (heads : List (Nat × Row)) {s : σ}, At i s →
      (∀ (j : Nat) t, sources[j]? = some t → V.ok i [] t) →
      (∀ (j : Nat) t, sources[j]? = some t → ∀ r, V.ahead t r → own (place + j) r) →
      Ordered cmp heads → (heads.map (·.1)).Nodup → (∀ j x, (j, x) ∈ heads → j < place) →
      ∃ sources' heads' s', prime cmp pull place sources heads s = ((none, sources', heads'), s') ∧
        At i s' ∧ sources'.length = sources.length ∧ Ordered cmp heads' ∧
        (heads'.map (·.1)).Nodup ∧ (∀ j x, (j, x) ∈ heads' → j < place + sources.length) ∧
        (∀ j x, j < place → ((j, x) ∈ heads' ↔ (j, x) ∈ heads)) ∧
        ∀ (j : Nat) t t', sources[j]? = some t → sources'[j]? = some t' →
          Fetched contents cmp own V cut i (place + j) t t' heads' := by
  induction sources with
  | nil =>
    intro place heads s hat _ _ hordered hplaces hbelow
    exact ⟨[], heads, s, rfl, hat, rfl, hordered, hplaces, hbelow, fun _ _ _ => .rfl, by simp⟩
  | cons t sources ih =>
    intro place heads s hat hok hown hordered hplaces hbelow
    have hownFirst : ∀ r, V.ahead t r → own place r := hown 0 t rfl
    have hownRest : ∀ (j : Nat) u, sources[j]? = some u → ∀ r, V.ahead u r → own (place + 1 + j) r :=
      fun j u hu r hr => by
        rw [show place + 1 + j = place + (j + 1) by omega]
        exact hown (j + 1) u hu r hr
    obtain ⟨t', heads₁, s₁, hat₁, hprime, hordered₁, hplaces₁, hbelow₁, hold, hfetched⟩ :=
      fetch_head hsrc hat (hok 0 t rfl) hownFirst hordered hplaces hbelow
    obtain ⟨sources', heads', s', hrest, hat', hlength, hordered', hplaces', hbelow', hold', hall⟩ :=
      ih (place + 1) heads₁ hat₁ (fun j u hu => hok (j + 1) u hu) hownRest hordered₁ hplaces₁ hbelow₁
    refine ⟨t' :: sources', heads', s', by rw [hprime, hrest], hat', by simp [hlength], hordered',
      hplaces', fun j x hx => ?_, fun j x hj => ?_, fun j u u' hu hu' => ?_⟩
    · have := hbelow' j x hx
      rw [List.length_cons]
      omega
    · rw [hold' j x (by omega), hold j x hj]
    · -- the heads of the other sources have not changed what was found at this place
      cases j with
      | zero =>
        obtain rfl := Option.some.inj hu
        obtain rfl := Option.some.inj hu'
        exact hfetched.congr fun x => hold' place x (Nat.lt_succ_self _)
      | succ j =>
        rw [show place + (j + 1) = place + 1 + j by omega]
        exact hall j u u' hu hu'

/-- Before the first call the first heads are fetched; what was ahead of the sources is ahead of the
merge then, or has been cut. -/
theorem exists_primed [Std.TransCmp cmp]
    (hsrc : Sweeps contents (fun x y => cmp x y = .lt) (fun _ _ => False) cut pull At V) {i : Nat}
    {sources : List τ} {s : σ} (hat : At i s)
    (ok : ∀ (j : Nat) t, sources[j]? = some t → V.ok i [] t)
    (hown : ∀ (j : Nat) t, sources[j]? = some t → ∀ r, V.ahead t r → own j r) :
    ∃ m s', Merge.next cmp pull (new sources) s = m.deliver cmp pull s' ∧ At i s' ∧
      Underway contents cmp own V i 0 m ∧
      (∀ r, Ahead V m r → Ahead V (new sources) r) ∧
      ∀ r, (contents i).Holds r → Ahead V (new sources) r → Ahead V m r ∨ cut [] r := by
  have hownAt : ∀ (j : Nat) t, sources[j]? = some t → ∀ r, V.ahead t r → own (0 + j) r := by
    simpa using hown
  obtain ⟨sources', heads, s', hprime, hat', hlength, hordered, hplaces, hbelow, -, hfetched⟩ :=
    prime_fetched hsrc 0 [] hat ok hownAt .nil .nil (by simp)
  have hsource : ∀ j x, (j, x) ∈ heads → ∃ t t', sources[j]? = some t ∧
      sources'[j]? = some t' ∧ Fetched contents cmp own V cut i j t t' heads := by
    intro j x hx
    have hj : j < sources.length := by simpa using hbelow j x hx
    have hget := List.getElem?_eq_getElem hj
    have hget' := List.getElem?_eq_getElem (hlength ▸ hj : j < sources'.length)
    exact ⟨sources[j], sources'[j], hget, hget', by simpa using hfetched j _ _ hget hget'⟩
  have hunder : Underway contents cmp own V i 0 ⟨sources', heads, true, none, false⟩ :=
    ⟨rfl, rfl, rfl, hordered, hplaces, fun j x hx => by
      obtain ⟨t, t', -, ht', hj⟩ := hsource j x hx
      exact ⟨t', ht', hj.headed x hx⟩⟩
  have hahead := ahead_of_primed (V := V) hunder.primed
  refine ⟨_, s', ?_, hat', hunder, fun r hr => ?_, fun r hheld hr => ?_⟩
  · simp only [next, new, hprime, Bool.false_eq_true, if_false]
  · obtain ⟨j, x, hx, hr⟩ := (hahead r).1 hr
    obtain ⟨t, t', ht, ht', hj⟩ := hsource j x hx
    obtain ⟨hback, hon⟩ := hj.back x hx
    refine ⟨t, List.mem_of_getElem? ht, ?_⟩
    rcases hr with rfl | ⟨u, hu, hr⟩
    · exact hback
    · obtain rfl := Option.some.inj (ht'.symm.trans hu)
      exact hon r hr
  · obtain ⟨t, ht, hr⟩ : ∃ t ∈ sources, V.ahead t r := hr
    obtain ⟨j, hj, rfl⟩ := List.mem_iff_getElem.1 ht
    have hget := List.getElem?_eq_getElem (hlength ▸ hj : j < sources'.length)
    have hfirst := hfetched j _ _ (List.getElem?_eq_getElem hj) hget
    rw [Nat.zero_add] at hfirst
    rcases hfirst.kept r hheld hr with hgone | ⟨x, hx, hr⟩
    · exact .inr hgone
    · exact .inl ((hahead r).2 ⟨j, x, hx, hr.imp_right fun hr => ⟨_, hget, hr⟩⟩)

/-- Sources that sweep over places of their own, put together, sweep over all these places.  A limit
of the sources cuts off no more than the same limit of the merge would. -/
theorem sweeps [Std.TransCmp cmp] (limit : Option Nat)
    (hsrc : Sweeps contents (fun x y => cmp x y = .lt) (fun _ _ => False) cut pull At V)
    (hdisjoint : ∀ j k x y, j ≠ k → own j x → own k y → cmp x y ≠ .eq)
    (hcut : ∀ rows r, cut rows r → ∃ l, limit = some l ∧ l ≤ rows.length) :
    Sweeps contents (fun x y => cmp x y = .lt) (CutOff (fun x y => cmp x y = .lt) limit)
      (CutOff (fun x y => cmp x y = .lt) limit) (Merge.next cmp pull) At
      (outlook contents cmp own V) where
  later {i given m} h := by
    cases h with
    | unasked ok own => exact .unasked (fun j t ht => hsrc.later (ok j t ht)) own
    | underway h =>
      refine .underway ⟨h.finished, h.parked, h.primed, h.ordered, h.places, fun j x hx => ?_⟩
      obtain ⟨t, ht, hx⟩ := h.headed j x hx
      exact ⟨t, ht, hx.mono (Nat.le_succ i) (Nat.le_refl _) fun _ => hsrc.later⟩
  step {i given m s} hstands hat := by
    cases hstands.ok with
    | underway h =>
      obtain ⟨item, m', s', hdeliver, hat', hadvance⟩ :=
        deliver_advances hsrc hdisjoint hcut h hstands.past hat
      refine ⟨item, m', s', ?_, hat', hadvance⟩
      simp only [next, h.finished, h.parked, h.primed, hdeliver, if_true, Bool.false_eq_true,
        if_false]
    | @unasked sources ok hown =>
      obtain ⟨m, s₁, hnext, hat₁, hunder, hback, hkept⟩ := exists_primed hsrc hat ok hown
      obtain ⟨item, m', s', hdeliver, hat', hadvance⟩ :=
        @deliver_advances σ τ contents cmp own V cut limit At pull _ hsrc hdisjoint hcut i [] m s₁
          hunder (by simp) hat₁
      refine ⟨item, m', s', hnext.trans hdeliver, hat', hadvance.of_fetched hback fun r hheld hr => ?_⟩
      -- a limit of a source that has given nothing cuts something off only if it is zero
      refine (hkept r hheld hr).imp_right fun hgone => ?_
      obtain ⟨l, rfl, hl⟩ := hcut _ r hgone
      obtain rfl : l = 0 := by simpa using hl
      exact ⟨cutOff_zero _ r, fun x => cutOff_zero _ r⟩

end Historian.Merge
