import Historian.Proofs.Read.StableMerge

/-!
# Merging lists as they are

The lists that a merge puts together need not be in order, and may hold failures anywhere.  What
comes out is then no sort any more, but it is still the least of the heads each time: the merge is
followed here from call to call, by the values that it has delivered and the places they came from.

* `Merge.headItem`, `Merge.failureMet` — what a list has next to the values that were taken from it,
  and the failure that the merge has run into when these values are out.
* `Merge.Greedy` — each value was the least of the heads, no failure had been met before it, and the
  values of one list came as they stand in it.
* `Merge.Live`, `Merge.Stage` — the state of the merge between two calls, which `Stage.next` and
  `Stage.calls` carry through one call and through all of them.
* `Merge.exists_account` — what is known of a merge of any lists after any number of calls.
-/

set_option autoImplicit false

namespace Historian

variable {α : Type} {cmp : α → α → Ordering}

/-! ## Lists that have given some of their items -/

namespace Supply

/-- What a source answers when it has come to this item, or to the end. -/
def answer : Option (Except Failure α) → Pulled α
  | some (.ok a) => .value a
  | some (.error e) => .failure e
  | none => .ended

/-- A list that has been asked so many times. -/
def after (items : List (Except Failure α)) (n : Nat) : Supply α :=
  ⟨items.drop n, min n items.length⟩

theorem next_after (items : List (Except Failure α)) (n : Nat) :
    next (after items n) () = ((answer items[n]?, after items (n + 1)), ()) := by
  by_cases hn : n < items.length
  · have hdrop : items.drop n = items[n] :: items.drop (n + 1) := List.drop_eq_getElem_cons hn
    have hgiven : min (n + 1) items.length = min n items.length + 1 := by omega
    rw [List.getElem?_eq_getElem hn]
    unfold next after
    rw [hdrop, hgiven]
    cases items[n] <;> rfl
  · have hdrop : items.drop n = [] := List.drop_eq_nil_of_le (by omega)
    have hrest : items.drop (n + 1) = [] := List.drop_eq_nil_of_le (by omega)
    have hgiven : min (n + 1) items.length = min n items.length := by omega
    rw [List.getElem?_eq_none (by omega)]
    unfold next after
    rw [hdrop, hrest, hgiven]
    rfl

end Supply

namespace Merge

/-! ## What was taken, and what comes next -/

/-- The values that were taken from list `i`, where each stands with the place of its list. -/
def taken (i : Nat) (picks : List (Nat × α)) : List α :=
  (picks.filter fun p => p.1 == i).map Prod.snd

theorem taken_append_self (picks : List (Nat × α)) (i : Nat) (a : α) :
    taken i (picks ++ [(i, a)]) = taken i picks ++ [a] := by
  simp [taken]

theorem taken_append_ne {i j : Nat} (hij : j ≠ i) (picks : List (Nat × α)) (a : α) :
    taken j (picks ++ [(i, a)]) = taken j picks := by
  simp [taken, Ne.symm hij]

variable {lists : List (List (Except Failure α))} {picks : List (Nat × α)} {i : Nat} {a : α}

/-- The item that list `i` has next. -/
def headItem (lists : List (List (Except Failure α))) (picks : List (Nat × α)) (i : Nat) :
    Option (Except Failure α) :=
  lists[i]?.bind fun l => l[(taken i picks).length]?

theorem headItem_of_getElem? {l : List (Except Failure α)} (hl : lists[i]? = some l) :
    headItem lists picks i = l[(taken i picks).length]? := by
  rw [headItem, hl, Option.bind_some]

theorem headItem_append_self (lists : List (List (Except Failure α))) (picks : List (Nat × α))
    (i : Nat) (a : α) : headItem lists (picks ++ [(i, a)]) i =
      lists[i]?.bind fun l => l[(taken i picks).length + 1]? := by
  rw [headItem, taken_append_self, List.length_append, List.length_singleton]

theorem headItem_append_ne {j : Nat} (hij : j ≠ i) (a : α) :
    headItem lists (picks ++ [(i, a)]) j = headItem lists picks j := by
  rw [headItem, taken_append_ne hij, headItem]

/-- The failure that an item is, if it is one. -/
def failureOf : Option (Except Failure α) → Option Failure
  | some (.error e) => some e
  | _ => none

theorem failureOf_eq_none {item : Option (Except Failure α)} (h : ∀ e, item ≠ some (.error e)) :
    failureOf item = none := by
  match item with
  | none => rfl
  | some (.ok a) => rfl
  | some (.error e) => exact absurd rfl (h e)

/-- The failure that is met first when the first items of the lists are fetched. -/
def firstFailure (lists : List (List (Except Failure α))) : Option Failure :=
  lists.findSome? fun l => failureOf l.head?

/-- The failure that has been met when these values are out: instead of the first head of a list, or
instead of the successor of the last value. -/
def failureMet (lists : List (List (Except Failure α))) (picks : List (Nat × α)) : Option Failure :=
  match picks.getLast? with
  | none => firstFailure lists
  | some (i, _) => failureOf (headItem lists picks i)

@[simp] theorem failureMet_nil (lists : List (List (Except Failure α))) :
    failureMet lists [] = firstFailure lists := rfl

@[simp] theorem failureMet_append (lists : List (List (Except Failure α)))
    (picks : List (Nat × α)) (i : Nat) (a : α) : failureMet lists (picks ++ [(i, a)]) =
      failureOf (headItem lists (picks ++ [(i, a)]) i) := by
  simp [failureMet]

/-- What comes after the values: the failure, if there is one, and then only that it has ended. -/
def closing : Option Failure → Nat → List (Pulled α)
  | some e, n + 1 => .failure e :: List.replicate n .ended
  | _, n => List.replicate n .ended

@[simp] theorem closing_zero (e : Option Failure) : (closing e 0 : List (Pulled α)) = [] := by
  cases e <;> rfl

theorem closing_none (n : Nat) : (closing none n : List (Pulled α)) = List.replicate n .ended := by
  cases n <;> rfl

theorem closing_succ (e : Option Failure) (n : Nat) :
    (closing e (n + 2) : List (Pulled α)) = closing e (n + 1) ++ [.ended] := by
  cases e with
  | none => exact List.replicate_succ'
  | some e =>
    show Pulled.failure e :: List.replicate (n + 1) Pulled.ended = _
    rw [List.replicate_succ']
    rfl

/-- The answers to so many calls more than there are values. -/
def told (lists : List (List (Except Failure α))) (picks : List (Nat × α)) (more : Nat) :
    List (Pulled α) :=
  picks.map (fun p => .value p.2) ++ closing (failureMet lists picks) more

/-! ## Least heads, one after the other -/

/-- The values were taken from the heads of the lists, as a merge has to take them. -/
structure Greedy (cmp : α → α → Ordering) (lists : List (List (Except Failure α)))
    (picks : List (Nat × α)) : Prop where
  /-- Each was the least of the heads, of equal ones that of the first list. -/
  least : ∀ before i a later, picks = before ++ (i, a) :: later →
    headItem lists before i = some (.ok a) ∧ ∀ j b, j ≠ i →
      headItem lists before j = some (.ok b) → cmp a b = .lt ∨ cmp a b = .eq ∧ i < j
  /-- None was taken after a failure was met. -/
  stops : ∀ before p later, picks = before ++ p :: later → failureMet lists before = none
  /-- Those of one list come as they stand in it, from its beginning and without a gap. -/
  inOrder : ∀ (i : Nat) l, lists[i]? = some l → (taken i picks).map .ok <+: l

/-- A value of a list that has been extended by one is the new one or was there before. -/
theorem eq_or_exists_of_append {p q : Nat × α} {before later : List (Nat × α)}
    (h : picks ++ [q] = before ++ p :: later) :
    (before = picks ∧ p = q) ∨ ∃ later', picks = before ++ p :: later' := by
  rcases List.eq_nil_or_concat later with rfl | ⟨later', x, rfl⟩
  · obtain ⟨hbefore, hp⟩ := List.append_inj' h rfl
    exact .inl ⟨hbefore.symm, (List.singleton_inj.1 hp).symm⟩
  · rw [List.concat_eq_append, ← List.cons_append, ← List.append_assoc] at h
    exact .inr ⟨later', (List.append_inj' h rfl).1⟩

namespace Greedy

theorem nil (cmp : α → α → Ordering) (lists : List (List (Except Failure α))) :
    Greedy cmp lists [] where
  least before i a later h := by simp at h
  stops before p later h := by simp at h
  inOrder i l _ := List.nil_prefix

/-- To go on with the least head. -/
theorem append (h : Greedy cmp lists picks) (hhead : headItem lists picks i = some (.ok a))
    (hleast : ∀ j b, j ≠ i → headItem lists picks j = some (.ok b) →
      goesBefore cmp i a j b = true) (hmet : failureMet lists picks = none) :
    Greedy cmp lists (picks ++ [(i, a)]) := by
  constructor
  case least =>
    intro before j b later hsplit
    rcases eq_or_exists_of_append hsplit with ⟨rfl, hp⟩ | ⟨later', hpicks⟩
    · obtain ⟨rfl, rfl⟩ := Prod.mk.inj hp
      exact ⟨hhead, fun k c hk hc => goesBefore_iff.1 (hleast k c hk hc)⟩
    · exact h.least before j b later' hpicks
  case stops =>
    intro before p later hsplit
    rcases eq_or_exists_of_append hsplit with ⟨rfl, -⟩ | ⟨later', hpicks⟩
    · exact hmet
    · exact h.stops before p later' hpicks
  case inOrder =>
    intro j l hl
    by_cases hij : j = i
    · subst hij
      rw [headItem_of_getElem? hl] at hhead
      -- what was taken is a first part of the list, and the head is the item after it
      have htaken := List.prefix_iff_eq_take.1 (h.inOrder j l hl)
      rw [List.length_map] at htaken
      rw [taken_append_self, List.map_append, htaken, List.map_singleton, List.prefix_iff_eq_take,
        List.length_append, List.length_singleton, List.length_take]
      obtain ⟨hlt, hitem⟩ := List.getElem?_eq_some_iff.1 hhead
      rw [Nat.min_eq_left (Nat.le_of_lt hlt), List.take_add_one, hhead]
      rfl
    · rw [taken_append_ne hij]
      exact h.inOrder j l hl

/-- With a failure met nothing is taken any more. -/
theorem eq_nil_of_met (h : Greedy cmp lists picks) {before later : List (Nat × α)} {e : Failure}
    (hpicks : picks = before ++ later) (hmet : failureMet lists before = some e) : later = [] := by
  cases later with
  | nil => rfl
  | cons p later =>
    rw [h.stops before p later hpicks] at hmet
    cases hmet

end Greedy

/-! ## The merge between two calls -/

/-- The lists when each has given one item more than was taken from it. -/
def lookahead (lists : List (List (Except Failure α))) (picks : List (Nat × α)) :
    List (Supply α) :=
  lists.mapIdx fun i l => Supply.after l ((taken i picks).length + 1)

theorem getElem?_lookahead {l : List (Except Failure α)} (hl : lists[i]? = some l) :
    (lookahead lists picks)[i]? = some (Supply.after l ((taken i picks).length + 1)) := by
  rw [lookahead, List.getElem?_mapIdx, hl, Option.map_some]

/-- Only the list that a value was taken from is asked. -/
theorem set_lookahead {l : List (Except Failure α)} (hl : lists[i]? = some l) (a : α) :
    (lookahead lists picks).set i (Supply.after l ((taken i picks).length + 2)) =
      lookahead lists (picks ++ [(i, a)]) := by
  refine List.ext_getElem? fun j => ?_
  by_cases hij : i = j
  · subst hij
    have hi : i < (lookahead lists picks).length := by
      rw [lookahead, List.length_mapIdx]
      exact (List.getElem?_eq_some_iff.1 hl).1
    rw [List.getElem?_set_self hi, getElem?_lookahead hl, taken_append_self, List.length_append,
      List.length_singleton]
  · rw [List.getElem?_set_ne hij, lookahead, lookahead, List.getElem?_mapIdx, List.getElem?_mapIdx,
      taken_append_ne (Ne.symm hij)]

/-- A merge that has the heads of all lists in hand, and among them no failure. -/
structure Live (cmp : α → α → Ordering) (lists : List (List (Except Failure α)))
    (picks : List (Nat × α)) (m : Merge (Supply α) α) : Prop where
  finished : m.finished = false
  parked : m.parked = none
  primed : m.primed = true
  sources : m.sources = lookahead lists picks
  ordered : Ordered cmp m.heads
  mem_heads : ∀ (i : Nat) a, (i, a) ∈ m.heads ↔ headItem lists picks i = some (.ok a)
  sound : ∀ (i : Nat) e, headItem lists picks i ≠ some (.error e)

/-- A merge of lists that has delivered these values, and since then so many other answers. -/
inductive Stage (cmp : α → α → Ordering) (lists : List (List (Except Failure α))) :
    List (Nat × α) → Nat → Merge (Supply α) α → Prop
  | fresh : Stage cmp lists [] 0 (.new (lists.map Supply.ofList))
  | live {picks : List (Nat × α)} {m : Merge (Supply α) α} (hpicks : picks ≠ [])
      (h : Live cmp lists picks m) : Stage cmp lists picks 0 m
  /-- The successor of the last value was a failure. -/
  | parked {picks : List (Nat × α)} {m : Merge (Supply α) α} {e : Failure} (hpicks : picks ≠ [])
      (hfinished : m.finished = false) (hparked : m.parked = some e)
      (hsources : m.sources = lookahead lists picks) (hmet : failureMet lists picks = some e) :
      Stage cmp lists picks 0 m
  | closed {picks : List (Nat × α)} {more : Nat} {m : Merge (Supply α) α}
      (hfinished : m.finished = true)
      (hdrained : failureMet lists picks = none → ∀ i, headItem lists picks i = none) :
      Stage cmp lists picks (more + 1) m

namespace Live

variable {m : Merge (Supply α) α} {rest : List (Nat × α)}

theorem failureMet_eq_none (h : Live cmp lists picks m) : failureMet lists picks = none := by
  unfold failureMet
  cases hlast : picks.getLast? with
  | none =>
    obtain rfl : picks = [] := List.getLast?_eq_none_iff.1 hlast
    refine List.findSome?_eq_none_iff.2 fun l hl => failureOf_eq_none fun e he => ?_
    obtain ⟨i, hi⟩ := List.getElem?_of_mem hl
    refine h.sound i e ?_
    rw [headItem_of_getElem? hi, ← he, List.head?_eq_getElem?]
    rfl
  | some p => exact failureOf_eq_none (h.sound p.1)

/-- The first of the heads is the least. -/
theorem least (h : Live cmp lists picks m) (hheads : m.heads = (i, a) :: rest) :
    headItem lists picks i = some (.ok a) ∧ ∀ j b, j ≠ i →
      headItem lists picks j = some (.ok b) → goesBefore cmp i a j b = true := by
  have hordered := h.ordered
  have hmem := h.mem_heads
  rw [hheads] at hordered hmem
  exact ⟨(hmem i a).1 List.mem_cons_self, fun j b hij hb =>
    hordered.first_goesBefore ((hmem j b).2 hb) hij⟩

/-- The other heads are those of the other lists. -/
theorem mem_rest [Std.TransCmp cmp] (h : Live cmp lists picks m)
    (hheads : m.heads = (i, a) :: rest) (j : Nat) (b : α) :
    (j, b) ∈ rest ↔ j ≠ i ∧ headItem lists picks j = some (.ok b) := by
  have hordered := h.ordered
  have hmem := h.mem_heads
  rw [hheads] at hordered hmem
  refine hordered.mem_rest hmem (fun k c d hc hd => ?_) j b
  rw [hc] at hd
  exact Except.ok.inj (Option.some.inj hd)

/-- The merge after its first head was taken and the list has given the successor, no failure. -/
theorem afterTake [Std.TransCmp cmp] (h : Live cmp lists picks m)
    (hheads : m.heads = (i, a) :: rest) {heads : List (Nat × α)} (hordered : Ordered cmp heads)
    (hmem : ∀ (j : Nat) b, (j, b) ∈ heads ↔
      (j = i ∧ headItem lists (picks ++ [(i, a)]) i = some (.ok b)) ∨ (j, b) ∈ rest)
    (hsound : ∀ e, headItem lists (picks ++ [(i, a)]) i ≠ some (.error e)) :
    Live cmp lists (picks ++ [(i, a)])
      { m with sources := lookahead lists (picks ++ [(i, a)]), heads } where
  finished := h.finished
  parked := h.parked
  primed := h.primed
  sources := rfl
  ordered := hordered
  mem_heads j b := by
    rw [hmem, h.mem_rest hheads]
    by_cases hij : j = i
    · subst hij
      simp
    · simp [hij, headItem_append_ne hij]
  sound j e := by
    by_cases hij : j = i
    · exact hij ▸ hsound e
    · rw [headItem_append_ne hij]
      exact h.sound j e

/-- The first head is delivered, whatever its list gives then. -/
theorem deliver_value [Std.TransCmp cmp] (h : Live cmp lists picks m)
    (hheads : m.heads = (i, a) :: rest) :
    ∃ m', m.deliver cmp Supply.next () = ((.value a, m'), ()) ∧
      Stage cmp lists (picks ++ [(i, a)]) 0 m' := by
  obtain ⟨l, hl, -⟩ : ∃ l, lists[i]? = some l ∧ l[(taken i picks).length]? = some (.ok a) :=
    Option.bind_eq_some_iff.1 (h.least hheads).1
  have hsource : m.sources[i]? = some (Supply.after l ((taken i picks).length + 1)) := by
    rw [h.sources, getElem?_lookahead hl]
  have hset : m.sources.set i (Supply.after l ((taken i picks).length + 2)) =
      lookahead lists (picks ++ [(i, a)]) := by
    rw [h.sources, set_lookahead hl]
  have hitem : headItem lists (picks ++ [(i, a)]) i = l[(taken i picks).length + 1]? := by
    rw [headItem_append_self, hl, Option.bind_some]
  have hrest : Ordered cmp rest := (List.pairwise_cons.1 (hheads ▸ h.ordered)).2
  have hpull := Supply.next_after l ((taken i picks).length + 1)
  rw [← hitem] at hpull
  have hpicks : picks ++ [(i, a)] ≠ [] := List.append_ne_nil_of_right_ne_nil _ (List.cons_ne_nil _ _)
  unfold deliver
  simp only [hheads, hsource, hpull, hset]
  -- only a failure keeps the merge from having all heads in hand again
  cases hnext : headItem lists (picks ++ [(i, a)]) i with
  | none => exact ⟨_, rfl, .live hpicks (h.afterTake hheads hrest (by simp [hnext]) (by simp [hnext]))⟩
  | some item =>
    cases item with
    | ok b =>
      have hnew : Ordered cmp (insertHead cmp i b rest) :=
        hrest.insertHead b fun j c hj => ((h.mem_rest hheads j c).1 hj).1
      refine ⟨_, rfl, .live hpicks (h.afterTake hheads hnew (fun j c => ?_) (by simp [hnext]))⟩
      rw [mem_insertHead, hnext, Prod.mk.injEq, Option.some.injEq, Except.ok.injEq, eq_comm (a := b)]
    | error e =>
      have hmet : failureMet lists (picks ++ [(i, a)]) = some e := by
        rw [failureMet_append, hnext]
        rfl
      exact ⟨_, rfl, .parked hpicks h.finished rfl rfl hmet⟩

/-- With no head in hand all lists have come to their ends. -/
theorem drained (h : Live cmp lists picks m) (hheads : m.heads = []) (i : Nat) :
    headItem lists picks i = none := by
  cases hitem : headItem lists picks i with
  | none => rfl
  | some item =>
    cases item with
    | ok a => exact absurd ((h.mem_heads i a).2 hitem) (hheads ▸ List.not_mem_nil)
    | error e => exact absurd hitem (h.sound i e)

end Live

/-! ## The first call -/

theorem prime_of_firstFailure (cmp : α → α → Ordering) {e : Failure} :
    ∀ {lists : List (List (Except Failure α))} (place : Nat) (heads : List (Nat × α)),
      firstFailure lists = some e →
      (prime cmp Supply.next place (lists.map Supply.ofList) heads ()).1.1 = some e := by
  intro lists
  induction lists with
  | nil => intro place heads h; cases h
  | cons l lists ih =>
    intro place heads h
    cases l with
    | nil => exact ih (place + 1) heads h
    | cons item items =>
      cases item with
      | ok b => exact ih (place + 1) (insertHead cmp place b heads) h
      | error e' => exact h

theorem prime_of_sound (cmp : α → α → Ordering) [Std.TransCmp cmp] :
    ∀ {lists : List (List (Except Failure α))} (place : Nat) (heads : List (Nat × α)),
      firstFailure lists = none → Ordered cmp heads →
      (∀ (i : Nat) a, (i, a) ∈ heads → i < place) →
      ∃ heads', prime cmp Supply.next place (lists.map Supply.ofList) heads () =
          ((none, lists.map (Supply.after · 1), heads'), ()) ∧
        Ordered cmp heads' ∧
        ∀ (i : Nat) a, (i, a) ∈ heads' ↔ (i, a) ∈ heads ∨ HeadAt place lists i (.ok a) := by
  intro lists
  induction lists with
  | nil => exact fun place heads _ hordered _ => ⟨heads, rfl, hordered, by simp [HeadAt]⟩
  | cons l lists ih =>
    intro place heads hfirst hordered hplaces
    cases l with
    | nil =>
      obtain ⟨heads', hprime, hordered', hmem⟩ := ih (place + 1) heads hfirst hordered
        fun i a hi => Nat.lt_succ_of_lt (hplaces i a hi)
      refine ⟨heads', ?_, hordered', fun i a => ?_⟩
      · have hpull : Supply.next (Supply.ofList ([] : List (Except Failure α))) () =
            ((.ended, Supply.after [] 1), ()) := Supply.next_after [] 0
        simp only [List.map_cons, prime, hpull, hprime]
      · rw [hmem, headAt_nil_cons]
    | cons item items =>
      cases item with
      | ok b =>
        have hnew : ∀ (i : Nat) a, (i, a) ∈ insertHead cmp place b heads → i < place + 1 :=
          lt_succ_of_mem_insertHead hplaces b
        obtain ⟨heads', hprime, hordered', hmem⟩ :=
          ih (place + 1) (insertHead cmp place b heads) hfirst
            (hordered.insertHead b fun j c hj => Nat.ne_of_lt (hplaces j c hj)) hnew
        refine ⟨heads', ?_, hordered', fun i a => ?_⟩
        · have hpull : Supply.next (Supply.ofList (.ok b :: items)) () =
              ((.value b, Supply.after (.ok b :: items) 1), ()) := Supply.next_after (.ok b :: items) 0
          simp only [List.map_cons, prime, hpull, hprime]
        · rw [hmem, mem_insertHead, headAt_cons_cons, or_assoc, or_left_comm, Prod.mk.injEq,
            Prod.mk.injEq, Except.ok.injEq]
      | error e => cases hfirst

theorem headItem_nil {item : Except Failure α} :
    headItem lists [] i = some item ↔ HeadAt 0 lists i item := by
  rw [headAt_zero, headItem]
  cases lists[i]? with
  | none => simp
  | some l => cases l <;> simp [taken]

/-- A merge that has fetched the first items, none of them a failure. -/
theorem live_primed (cmp : α → α → Ordering) [Std.TransCmp cmp] (hfirst : firstFailure lists = none) :
    ∃ sources heads, prime cmp Supply.next 0 (lists.map Supply.ofList) [] () =
        ((none, sources, heads), ()) ∧
      Live cmp lists [] ⟨sources, heads, true, none, false⟩ := by
  obtain ⟨heads, hprime, hordered, hmem⟩ :=
    prime_of_sound cmp 0 [] hfirst .nil (by simp)
  refine ⟨_, heads, hprime, rfl, rfl, rfl, ?_, hordered, fun i a => ?_, fun i e he => ?_⟩
  · refine List.ext_getElem? fun i => ?_
    rw [lookahead, List.getElem?_mapIdx, List.getElem?_map]
    rfl
  · rw [hmem, headItem_nil]
    exact or_iff_right List.not_mem_nil
  · obtain ⟨xs, hl⟩ := headAt_zero.1 (headItem_nil.1 he)
    have hnone := List.findSome?_eq_none_iff.1 hfirst _ (List.mem_of_getElem? hl)
    cases hnone

/-! ## One call, and all of them -/

/-- A failure among the answers is the one that was met, and comes right after the values. -/
theorem eq_length_of_told {more k : Nat} {e : Failure}
    (h : (told lists picks more)[k]? = some (.failure e)) :
    k = picks.length ∧ failureMet lists picks = some e := by
  unfold told at h
  rcases Nat.lt_or_ge k picks.length with hk | hk
  · rw [List.getElem?_append_left (by simpa using hk), List.getElem?_map] at h
    obtain ⟨p, -, hp⟩ := Option.map_eq_some_iff.1 h
    cases hp
  · rw [List.getElem?_append_right (by simpa using hk), List.length_map] at h
    cases hmet : failureMet lists picks with
    | none =>
      rw [hmet, closing_none, List.getElem?_replicate] at h
      split at h <;> cases h
    | some e' =>
      cases more with
      | zero => simp at h
      | succ more =>
        rw [hmet] at h
        cases hrest : k - picks.length with
        | zero =>
          rw [hrest] at h
          cases h
          exact ⟨by omega, rfl⟩
        | succ n =>
          rw [hrest, closing, List.getElem?_cons_succ, List.getElem?_replicate] at h
          split at h <;> cases h

/-- A failure that was met is the next answer. -/
theorem getElem?_told {more : Nat} {e : Failure} (hmet : failureMet lists picks = some e)
    (hmore : 0 < more) : (told lists picks more)[picks.length]? = some (.failure e) := by
  obtain ⟨more, rfl⟩ := Nat.exists_eq_add_of_lt hmore
  rw [told, hmet, List.getElem?_append_right (by simp), List.length_map, Nat.sub_self,
    Nat.zero_add, closing]
  rfl

theorem told_nil (lists : List (List (Except Failure α))) : told lists [] 0 = [] := closing_zero _

/-- A merge with the heads in hand delivers the least of them, or else has ended. -/
theorem Live.delivers [Std.TransCmp cmp] {m : Merge (Supply α) α} (h : Live cmp lists picks m)
    (hgreedy : Greedy cmp lists picks) :
    ∃ item m' picks' more, m.deliver cmp Supply.next () = ((item, m'), ()) ∧
      told lists picks' more = told lists picks 0 ++ [item] ∧
      picks'.length + more = picks.length + 1 ∧
      Stage cmp lists picks' more m' ∧ Greedy cmp lists picks' := by
  cases hheads : m.heads with
  | nil =>
    refine ⟨.ended, { m with finished := true }, picks, 1, ?_, ?_, rfl, ?_, hgreedy⟩
    · simp only [deliver, hheads]
    · simp [told, h.failureMet_eq_none, closing]
    · exact .closed rfl fun _ => h.drained hheads
  | cons first rest =>
    obtain ⟨i, a⟩ := first
    obtain ⟨hhead, hleast⟩ := h.least hheads
    obtain ⟨m', hdeliver, hstage⟩ := h.deliver_value hheads
    refine ⟨.value a, m', picks ++ [(i, a)], 0, hdeliver, ?_, ?_, hstage, ?_⟩
    · simp [told]
    · simp
    · exact hgreedy.append hhead hleast h.failureMet_eq_none

/-- One call adds a value, or tells once more how the values have come to an end. -/
theorem Stage.next [Std.TransCmp cmp] {m : Merge (Supply α) α} {more : Nat}
    (h : Stage cmp lists picks more m) (hgreedy : Greedy cmp lists picks) :
    ∃ item m' picks' more', m.next cmp Supply.next () = ((item, m'), ()) ∧
      told lists picks' more' = told lists picks more ++ [item] ∧
      picks'.length + more' = picks.length + more + 1 ∧
      Stage cmp lists picks' more' m' ∧ Greedy cmp lists picks' := by
  cases h with
  | fresh =>
    cases hfirst : firstFailure lists with
    | some e =>
      rcases hprime : prime cmp Supply.next 0 (lists.map Supply.ofList) [] () with
        ⟨⟨failure, sources, heads⟩, s⟩
      have hfailure := prime_of_firstFailure cmp 0 [] hfirst
      rw [hprime] at hfailure
      obtain rfl : failure = some e := hfailure
      refine ⟨.failure e, ⟨sources, heads, true, none, true⟩, [], 1, ?_, ?_, rfl, ?_, hgreedy⟩
      · simp [Merge.next, new, hprime]
      · simp [told, hfirst, closing]
      · exact .closed rfl fun hnone => by simp [hfirst] at hnone
    | none =>
      obtain ⟨sources, heads, hprime, hlive⟩ := live_primed cmp hfirst
      have hnext : (Merge.new (lists.map Supply.ofList)).next cmp Supply.next () =
          Merge.deliver cmp Supply.next ⟨sources, heads, true, none, false⟩ () := by
        simp [Merge.next, new, hprime]
      rw [hnext]
      exact hlive.delivers hgreedy
  | live hpicks hlive =>
    have hnext : m.next cmp Supply.next () = m.deliver cmp Supply.next () := by
      simp [Merge.next, hlive.finished, hlive.parked, hlive.primed]
    rw [hnext]
    exact hlive.delivers hgreedy
  | @parked _ _ e hpicks hfinished hparked hsources hmet =>
    refine ⟨.failure e, { m with parked := none, finished := true }, picks, 1, ?_, ?_, rfl, ?_,
      hgreedy⟩
    · simp [Merge.next, hfinished, hparked]
    · simp [told, hmet, closing]
    · exact .closed rfl fun hnone => by simp [hmet] at hnone
  | @closed _ more _ hfinished hdrained =>
    refine ⟨.ended, m, picks, more + 2, next_of_finished Supply.next m () hfinished, ?_, rfl,
      .closed hfinished hdrained, hgreedy⟩
    rw [told, told, closing_succ, List.append_assoc]

/-- So every run of calls adds some values, and then tells how they have come to an end. -/
theorem Stage.calls [Std.TransCmp cmp] (n : Nat) :
    ∀ {picks : List (Nat × α)} {more : Nat} {m : Merge (Supply α) α},
      Stage cmp lists picks more m → Greedy cmp lists picks →
      ∃ answers m' picks' more',
        pullTimes (Merge.next cmp Supply.next) n m () = ((answers, m'), ()) ∧
        told lists picks' more' = told lists picks more ++ answers ∧
        picks'.length + more' = picks.length + more + n ∧
        Stage cmp lists picks' more' m' ∧ Greedy cmp lists picks' := by
  induction n with
  | zero =>
    intro picks more m h hgreedy
    exact ⟨[], m, picks, more, rfl, (List.append_nil _).symm, rfl, h, hgreedy⟩
  | succ n ih =>
    intro picks more m h hgreedy
    obtain ⟨item, m₁, picks₁, more₁, hnext, htold₁, hlength₁, h₁, hgreedy₁⟩ := h.next hgreedy
    obtain ⟨answers, m', picks', more', hcalls, htold', hlength', h', hgreedy'⟩ := ih h₁ hgreedy₁
    refine ⟨item :: answers, m', picks', more', ?_, ?_, ?_, h', hgreedy'⟩
    · rw [pullTimes, bind_run hnext]
      exact bind_run hcalls
    · rw [htold', htold₁, List.append_assoc]
      rfl
    · omega

/-- The state of the sources after the last value. -/
theorem Stage.sources_eq {m : Merge (Supply α) α} (h : Stage cmp lists picks 0 m)
    (hpicks : picks ≠ []) : m.sources = lookahead lists picks := by
  cases h with
  | fresh => exact absurd rfl hpicks
  | live _ h => exact h.sources
  | parked _ _ _ hsources _ => exact hsources

theorem Stage.finished {m : Merge (Supply α) α} {more : Nat}
    (h : Stage cmp lists picks (more + 1) m) : m.finished = true := by
  cases h with
  | closed hfinished _ => exact hfinished

theorem Stage.drained {m : Merge (Supply α) α} {more : Nat}
    (h : Stage cmp lists picks (more + 1) m) (hmet : failureMet lists picks = none) (i : Nat) :
    headItem lists picks i = none := by
  cases h with
  | closed _ hdrained => exact hdrained hmet i

/-- A merge that is finished is left as it is, and so are its sources. -/
theorem pullTimes_of_isFinished {m : Merge (Supply α) α} (hfinished : m.finished = true) (n : Nat) :
    pullTimes (Merge.next cmp Supply.next) n m () = ((List.replicate n .ended, m), ()) := by
  induction n with
  | zero => rfl
  | succ n ih =>
    rw [pullTimes, bind_run (next_of_finished Supply.next m () hfinished)]
    exact bind_run ih

/-! ## Any lists, any number of calls -/

/-- The answers to so many calls, and the merge that is left. -/
def ofLists (cmp : α → α → Ordering) (lists : List (List (Except Failure α))) (calls : Nat) :
    List (Pulled α) × Merge (Supply α) α :=
  (pullTimes (Merge.next cmp Supply.next) calls (.new (lists.map Supply.ofList)) ()).1

/-- What is known of a merge of lists after so many calls, where `picks` are the values that it has
delivered, each with the place of its list. -/
structure Account (cmp : α → α → Ordering) (lists : List (List (Except Failure α))) (calls : Nat)
    (picks : List (Nat × α)) : Prop extends Greedy cmp lists picks where
  length_le : picks.length ≤ calls
  /-- After the values comes the failure that was met, if there is one, and then only that the merge
  has ended. -/
  answers : (ofLists cmp lists calls).1 = picks.map (fun p => .value p.2) ++
    closing (failureMet lists picks) (calls - picks.length)
  /-- A failure met in fetching the first heads comes first. -/
  firstFailure : ∀ e, firstFailure lists = some e →
    picks = [] ∧ (0 < calls → (ofLists cmp lists calls).1[0]? = some (.failure e))
  /-- One met in fetching the successor of a value comes right after it. -/
  nextFailure : ∀ before i a later e, picks = before ++ (i, a) :: later →
    headItem lists (before ++ [(i, a)]) i = some (.error e) → later = [] ∧
      (picks.length < calls → (ofLists cmp lists calls).1[picks.length]? = some (.failure e))
  /-- There is at most one, and no value after it. -/
  failure : ∀ k e, (ofLists cmp lists calls).1[k]? = some (.failure e) →
    k = picks.length ∧ failureMet lists picks = some e
  /-- Nothing is asked before the first call. -/
  untouched : calls = 0 → ∀ t ∈ (ofLists cmp lists calls).2.sources, t.given = 0
  /-- After a call that has brought a value, each list has given what was taken from it and one item
  more, unless that was all of it. -/
  given : 0 < calls → picks.length = calls → ∀ (i : Nat) l, lists[i]? = some l →
    (ofLists cmp lists calls).2.sources[i]?.map Supply.given =
      some (min l.length ((taken i picks).length + 1))
  /-- Where it has ended without a failure, all of every list has come out. -/
  complete : picks.length < calls → failureMet lists picks = none →
    ∀ (i : Nat) l, lists[i]? = some l → (taken i picks).map .ok = l
  /-- From then on it answers nothing else and asks for nothing. -/
  fused : picks.length < calls → ∀ later,
    pullTimes (Merge.next cmp Supply.next) later (ofLists cmp lists calls).2 () =
      ((List.replicate later .ended, (ofLists cmp lists calls).2), ())

/-- A merge of any lists, which need not be in order and may hold failures anywhere, delivers the
least of their heads at every call, and stops for good at the first failure. -/
theorem exists_account [Std.TransCmp cmp] (lists : List (List (Except Failure α))) (calls : Nat) :
    ∃ picks, Account cmp lists calls picks := by
  obtain ⟨answers, m, picks, more, hcalls, htold, hlength, hstage, hgreedy⟩ :=
    (Stage.fresh : Stage cmp lists [] 0 _).calls calls (.nil cmp lists)
  have hrun : ofLists cmp lists calls = (answers, m) := congrArg Prod.fst hcalls
  rw [told_nil, List.nil_append] at htold
  rw [List.length_nil, Nat.zero_add] at hlength
  obtain rfl : answers = told lists picks more := htold.symm
  refine ⟨picks, hgreedy, ?length_le, ?answers, ?firstFailure, ?nextFailure,
    ?failure, ?untouched, ?given, ?complete, ?fused⟩
  case length_le => omega
  case answers =>
    rw [hrun, told, show calls - picks.length = more by omega]
  case firstFailure =>
    intro e he
    have hmet : failureMet lists [] = some e := he
    obtain rfl : picks = [] := hgreedy.eq_nil_of_met (List.nil_append picks).symm hmet
    refine ⟨rfl, fun hcalled => ?_⟩
    rw [hrun]
    exact getElem?_told hmet (by rwa [← hlength, List.length_nil, Nat.zero_add] at hcalled)
  case nextFailure =>
    intro before i a later e hpicks he
    have hmet : failureMet lists (before ++ [(i, a)]) = some e := by
      rw [failureMet_append, he]
      rfl
    rw [List.append_cons] at hpicks
    obtain rfl : later = [] := hgreedy.eq_nil_of_met hpicks hmet
    rw [List.append_nil] at hpicks
    refine ⟨rfl, fun hless => ?_⟩
    rw [hrun]
    rw [← hpicks] at hmet
    exact getElem?_told hmet (by omega)
  case failure =>
    rw [hrun]
    exact fun k e hk => eq_length_of_told hk
  case untouched =>
    rintro rfl t ht
    obtain ⟨l, -, rfl⟩ := List.mem_map.1 ht
    rfl
  case given =>
    intro hcalled hall i l hl
    obtain rfl : more = 0 := by omega
    have hpicks : picks ≠ [] := List.ne_nil_of_length_pos (hall ▸ hcalled)
    rw [hrun, hstage.sources_eq hpicks, getElem?_lookahead hl, Option.map_some]
    exact congrArg some (Nat.min_comm _ _)
  case complete =>
    intro hless hmet i l hl
    obtain ⟨more, rfl⟩ : ∃ more', more = more' + 1 := ⟨more - 1, by omega⟩
    have hnone := hstage.drained hmet i
    rw [headItem_of_getElem? hl, List.getElem?_eq_none_iff] at hnone
    exact (hgreedy.inOrder i l hl).eq_of_length_le (by rwa [List.length_map])
  case fused =>
    intro hless later
    obtain ⟨more, rfl⟩ : ∃ more', more = more' + 1 := ⟨more - 1, by omega⟩
    rw [hrun]
    exact pullTimes_of_isFinished hstage.finished later

/-- Two lists out of order with an empty one between them; the first of them fails. -/
theorem exists_account_out_of_order :
    let lost : Failure := .storage (.io "lost")
    let lists : List (List (Except Failure (Nat × Char))) :=
      [[.ok (2, 'a'), .ok (1, 'b'), .error lost, .ok (0, 'c')], [], [.ok (2, 'd'), .ok (1, 'e')]]
    let (answers, m) := ofLists (compareOn Prod.fst) lists 4
    answers = [.value (2, 'a'), .value (1, 'b'), .failure lost, .ended] ∧
      m.sources.map Supply.given = [3, 0, 1] ∧
      ∃ picks, Account (compareOn Prod.fst) lists 4 picks := by
  intro lost lists
  exact ⟨by decide +kernel, by decide +kernel, exists_account lists 4⟩

end Merge

end Historian
