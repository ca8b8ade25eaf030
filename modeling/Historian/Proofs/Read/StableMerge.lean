import Historian.Proofs.Read.Merging

/-!
# Merging is a stable sort

What comes out of ordered lists that are merged is the stable sort of the lists put one after the
other: items with equal keys come by the place of their list, and those of one list in its order.

* `StablySorted` — what a stable sort of several lists is, and `StablySorted.unique`, that there is
  only one.
* `Merges.stablySorted` — merging ordered lists sorts them so, one head after the other.
* `stablySorted_mergeSorted` — so does the merge sort of the lists put one after the other.
* `Merge.answers_eq_mergeSort` — what a merge of lists answers, however often it is asked.
-/

set_option autoImplicit false

namespace Historian

variable {σ τ α κ : Type} {cmp : α → α → Ordering}

/-! ## Stable sorts -/

/-- The item has the key of `a`. -/
def ties (cmp : α → α → Ordering) (a x : α) : Bool := cmp x a == .eq

theorem ties_iff {a x : α} : ties cmp a x = true ↔ cmp x a = .eq := by
  simp [ties]

/-- `out` holds the items of the lists in ascending order; those with one key come list by list, and
as they stand in their list. -/
structure StablySorted (cmp : α → α → Ordering) (lists : List (List α)) (out : List α) : Prop where
  perm : out.Perm lists.flatten
  ascending : out.Pairwise fun x y => (cmp x y).isLE = true
  stable : ∀ a, out.filter (ties cmp a) = lists.flatMap fun l => l.filter (ties cmp a)

theorem ties_self [Std.TransCmp cmp] (a : α) : ties cmp a a = true :=
  ties_iff.2 Std.ReflCmp.compare_self

theorem isLE_of_ties [Std.TransCmp cmp] {a x y : α} (hx : ties cmp a x = true)
    (hy : ties cmp a y = true) : (cmp x y).isLE = true := by
  have heq := Std.TransCmp.eq_trans (ties_iff.1 hx) (Std.OrientedCmp.eq_symm (ties_iff.1 hy))
  rw [heq]
  rfl

/-- In an ascending list that begins with `a`, whatever has the key of another item that is not after
`a` stands with `a`. -/
theorem ties_head_of_isLE [Std.TransCmp cmp] {a b : α} {xs : List α}
    (h : (a :: xs).Pairwise fun x y => (cmp x y).isLE = true) (hb : b ∈ a :: xs)
    (hba : (cmp b a).isLE = true) : ties cmp a b = true := by
  rw [ties_iff]
  rcases List.mem_cons.1 hb with rfl | hb
  · exact Std.ReflCmp.compare_self
  · exact Std.OrientedCmp.isLE_antisymm hba ((List.pairwise_cons.1 h).1 b hb)

/-- Ascending lists that agree on the items of every key are equal. -/
theorem eq_of_filter_ties [Std.TransCmp cmp] {out out' : List α}
    (h : out.Pairwise fun x y => (cmp x y).isLE = true)
    (h' : out'.Pairwise fun x y => (cmp x y).isLE = true)
    (heq : ∀ a, out.filter (ties cmp a) = out'.filter (ties cmp a)) : out = out' := by
  have hmem : ∀ {xs ys : List α}, (∀ a, xs.filter (ties cmp a) = ys.filter (ties cmp a)) →
      ∀ b ∈ xs, b ∈ ys := by
    intro xs ys heq b hb
    have : b ∈ ys.filter (ties cmp b) := heq b ▸ List.mem_filter.2 ⟨hb, ties_self b⟩
    exact (List.mem_filter.1 this).1
  induction out generalizing out' with
  | nil =>
    cases out' with
    | nil => rfl
    | cons b ys => exact absurd (hmem (fun a => (heq a).symm) b List.mem_cons_self) List.not_mem_nil
  | cons a xs ih =>
    cases out' with
    | nil => exact absurd (hmem heq a List.mem_cons_self) List.not_mem_nil
    | cons b ys =>
      -- both first items are least, so they have one key, and each is the first with that key
      have hab : (cmp a b).isLE = true := by
        rcases List.mem_cons.1 (hmem (fun c => (heq c).symm) b List.mem_cons_self) with rfl | hb
        · exact isLE_of_ties (ties_self b) (ties_self b)
        · exact (List.pairwise_cons.1 h).1 b hb
      have hba : ties cmp a b = true := ties_iff.2 <| by
        have htie := ties_head_of_isLE h' (hmem heq a List.mem_cons_self) hab
        exact Std.OrientedCmp.eq_symm (ties_iff.1 htie)
      have hhead := heq a
      rw [List.filter_cons_of_pos (ties_self a), List.filter_cons_of_pos hba] at hhead
      obtain rfl := (List.cons.inj hhead).1
      refine congrArg _ (ih (List.pairwise_cons.1 h).2 (List.pairwise_cons.1 h').2 fun c => ?_)
      have hrest := heq c
      by_cases hc : ties cmp c a = true
      · rw [List.filter_cons_of_pos hc, List.filter_cons_of_pos hc] at hrest
        exact (List.cons.inj hrest).2
      · rwa [List.filter_cons_of_neg hc, List.filter_cons_of_neg hc] at hrest

/-- There is only one stable sort. -/
theorem StablySorted.unique [Std.TransCmp cmp] {lists : List (List α)} {out out' : List α}
    (h : StablySorted cmp lists out) (h' : StablySorted cmp lists out') : out = out' :=
  eq_of_filter_ties h.ascending h'.ascending fun a => (h.stable a).trans (h'.stable a).symm

/-- The lists put one after the other and sorted by merge sort. -/
def mergeSorted (cmp : α → α → Ordering) (lists : List (List α)) : List α :=
  lists.flatten.mergeSort fun x y => (cmp x y).isLE

theorem stablySorted_mergeSorted [Std.TransCmp cmp] (lists : List (List α)) :
    StablySorted cmp lists (mergeSorted cmp lists) := by
  have htrans : ∀ a b c : α, (cmp a b).isLE = true → (cmp b c).isLE = true →
      (cmp a c).isLE = true := fun a b c => Std.TransCmp.isLE_trans
  have htotal : ∀ a b : α, ((cmp a b).isLE || (cmp b a).isLE) = true := fun a b => by
    have hswap : cmp b a = (cmp a b).swap := Std.OrientedCmp.eq_swap
    rw [hswap]
    cases cmp a b <;> rfl
  have hperm := List.mergeSort_perm lists.flatten fun x y => (cmp x y).isLE
  refine ⟨hperm, List.pairwise_mergeSort htrans htotal _, fun a => ?_⟩
  have htied : (lists.flatten.filter (ties cmp a)).Pairwise fun x y => (cmp x y).isLE = true :=
    List.pairwise_iff_forall_sublist.2 fun {x y} hxy => isLE_of_ties
      (List.mem_filter.1 (hxy.subset (by simp))).2 (List.mem_filter.1 (hxy.subset (by simp))).2
  -- the items with one key are ordered as they stand, so the merge sort leaves them in that order
  have hsublist := (List.sublist_mergeSort htrans htotal htied List.filter_sublist).filter (ties cmp a)
  simp only [List.filter_filter, Bool.and_self] at hsublist
  rw [List.flatMap_def, ← List.filter_flatten]
  exact (hsublist.eq_of_length (hperm.filter _).length_eq.symm).symm

/-! ## Merged lists -/

namespace Merges

/-- Where a list is asked before that of the least head, it holds nothing with the key of that head. -/
theorem filter_ties_earlier [Std.TransCmp cmp] {lists : List (List α)} {i j : Nat} {a c : α}
    {l : List α} (hleast : IsLeastHead cmp lists i a) (hget : lists[j]? = some l) (hj : j < i)
    (hl : l.Pairwise fun x y => (cmp x y).isLE = true) (ha : ties cmp c a = true) :
    l.filter (ties cmp c) = [] := by
  cases l with
  | nil => rfl
  | cons b ys =>
    have hab : cmp a b = .lt := by
      rcases Merge.goesBefore_iff.1 (hleast j b ys hget (Nat.ne_of_lt hj)) with hlt | ⟨-, hij⟩
      · exact hlt
      · omega
    refine List.filter_eq_nil_iff.2 fun y hy htie => ?_
    have hby : (cmp b y).isLE = true := by
      rcases List.mem_cons.1 hy with rfl | hy
      · exact isLE_of_ties (ties_self y) (ties_self y)
      · exact (List.pairwise_cons.1 hl).1 y hy
    have hlt : cmp a y = .lt := Std.TransCmp.lt_of_lt_of_isLE hab hby
    have heq : cmp a y = .eq :=
      Std.TransCmp.eq_trans (ties_iff.1 ha) (Std.OrientedCmp.eq_symm (ties_iff.1 htie))
    rw [hlt] at heq
    cases heq

/-- Merging keeps the order of items with one key: that of their lists, and within a list its own. -/
theorem filter_ties [Std.TransCmp cmp] {lists : List (List α)} {out : List α}
    (h : Merges cmp lists out)
    (hlists : ∀ l ∈ lists, l.Pairwise fun x y => (cmp x y).isLE = true) (c : α) :
    out.filter (ties cmp c) = lists.flatMap fun l => l.filter (ties cmp c) := by
  induction h with
  | done h =>
    refine (List.flatMap_eq_nil_iff.2 fun l hl => ?_).symm
    rw [h l hl, List.filter_nil]
  | @step lists i a xs out hget hleast rest ih =>
    have hset : ∀ l ∈ lists.set i xs, l.Pairwise fun x y => (cmp x y).isLE = true := fun l hl => by
      rcases List.mem_or_eq_of_mem_set hl with hl | rfl
      · exact hlists l hl
      · exact (List.pairwise_cons.1 (hlists _ (List.mem_of_getElem? hget))).2
    obtain ⟨hi, hlist⟩ := List.getElem?_eq_some_iff.1 hget
    obtain ⟨earlier, later, hsplit, hlength, hsplit'⟩ :
        ∃ earlier later, lists = earlier ++ lists[i] :: later ∧ earlier.length = i ∧
          lists.set i xs = earlier ++ xs :: later := List.exists_of_set hi
    rw [hlist] at hsplit
    have hrest := ih hset
    have hall := congrArg (List.flatMap fun l => l.filter (ties cmp c)) hsplit
    rw [hsplit', List.flatMap_append, List.flatMap_cons] at hrest
    rw [hall, List.flatMap_append, List.flatMap_cons]
    by_cases ha : ties cmp c a = true
    · have hearlier : (earlier.flatMap fun l => l.filter (ties cmp c)) = [] := by
        refine List.flatMap_eq_nil_iff.2 fun l hl => ?_
        obtain ⟨j, hj, rfl⟩ := List.mem_iff_getElem.1 hl
        have hgetEarlier : lists[j]? = some earlier[j] := by
          rw [hsplit, List.getElem?_append_left hj, List.getElem?_eq_getElem hj]
        exact filter_ties_earlier hleast hgetEarlier (hlength ▸ hj)
          (hlists _ (List.mem_of_getElem? hgetEarlier)) ha
      rw [hearlier, List.nil_append] at hrest ⊢
      rw [List.filter_cons_of_pos ha, List.filter_cons_of_pos ha, hrest, List.cons_append]
    · rw [List.filter_cons_of_neg ha, List.filter_cons_of_neg ha, hrest]

/-- What ordered lists merge to is their stable sort. -/
theorem stablySorted [Std.TransCmp cmp] {lists : List (List α)} {out : List α}
    (h : Merges cmp lists out)
    (hlists : ∀ l ∈ lists, l.Pairwise fun x y => (cmp x y).isLE = true) :
    StablySorted cmp lists out :=
  ⟨h.perm, h.pairwise hlists, h.filter_ties hlists⟩

end Merges

/-! ## Asking a merge -/

/-- What is answered by a source that gives a list and then has ended for good, which the state of
the source tells. -/
theorem pullTimes_of_yields {pull : τ → StateM σ (Pulled α × τ)} {Intact : σ → Prop}
    {Finished : τ → Prop} (hends : ∀ t s, (pull t s).1.1 = .ended → Finished (pull t s).1.2)
    (hstays : ∀ t s, Finished t → (pull t s).1.1 = .ended ∧ Finished (pull t s).1.2)
    {xs : List α} : ∀ (n : Nat) {t : τ} {s : σ}, Yields pull Intact t xs → Intact s →
      (pullTimes pull n t s).1.1 = (xs.map Pulled.value ++ List.replicate n Pulled.ended).take n := by
  intro n
  induction n generalizing xs with
  | zero => exact fun _ _ => rfl
  | succ n ih =>
    intro t s h hs
    show (pull t s).1.1 :: (pullTimes pull n (pull t s).1.2 (pull t s).2).1.1 = _
    cases xs with
    | nil =>
      obtain ⟨hitem, -⟩ := h s hs
      rw [hitem, pullTimes_of_finished hstays n (hends t s hitem), List.map_nil, List.nil_append,
        List.take_replicate, Nat.min_self, List.replicate_succ]
    | cons x rest =>
      obtain ⟨hitem, hs', hrest⟩ := h s hs
      rw [hitem, ih hrest hs', List.map_cons, List.cons_append, List.take_succ_cons]
      congr 1
      rw [List.replicate_succ', ← List.append_assoc]
      exact (List.take_append_of_le_length (by simp)).symm

namespace Supply

/-- A list without failures gives its items. -/
theorem yields (xs : List α) : ∀ given : Nat,
    Yields next (fun _ => True) (Supply.mk (xs.map .ok) given) xs := by
  induction xs with
  | nil => exact fun _ _ _ => ⟨rfl, trivial⟩
  | cons x rest ih => exact fun given _ _ => ⟨rfl, trivial, ih (given + 1)⟩

end Supply

namespace Merge

/-- A merge delivers a value unless it is finished. -/
theorem deliver_finishes (pull : τ → StateM σ (Pulled α × τ)) (m : Merge τ α) (s : σ) :
    (∃ a, (m.deliver cmp pull s).1.1 = .value a) ∨ (m.deliver cmp pull s).1.2.finished = true := by
  unfold deliver
  cases m.heads with
  | nil => exact .inr rfl
  | cons first rest =>
    obtain ⟨i, a⟩ := first
    refine .inl ⟨a, ?_⟩
    simp only
    cases m.sources[i]? with
    | none => rfl
    | some t =>
      rcases hpull : pull t s with ⟨⟨item, t'⟩, s'⟩
      cases item <;> simp only [hpull]

/-- A merge that says that it has ended is finished. -/
theorem finished_of_ended (pull : τ → StateM σ (Pulled α × τ)) (m : Merge τ α) (s : σ)
    (h : (m.next cmp pull s).1.1 = .ended) : (m.next cmp pull s).1.2.finished = true := by
  have hdeliver : ∀ (m : Merge τ α) (s : σ), (m.deliver cmp pull s).1.1 = .ended →
      (m.deliver cmp pull s).1.2.finished = true := by
    intro m s h
    refine (deliver_finishes pull m s).resolve_left fun ⟨a, ha⟩ => ?_
    rw [h] at ha
    cases ha
  by_cases hfinished : m.finished = true
  · simp [next, hfinished]
  · cases hparked : m.parked with
    | some e => simp [next, hfinished, hparked]
    | none =>
      by_cases hprimed : m.primed = true
      · simp only [next, hfinished, hparked, hprimed, if_true] at h ⊢
        exact hdeliver m s h
      · rcases hprime : prime cmp pull 0 m.sources m.heads s with ⟨⟨failure, sources, heads⟩, s'⟩
        simp only [next, hfinished, hparked, hprimed, hprime] at h ⊢
        cases failure with
        | some e => rfl
        | none => exact hdeliver _ s' h

theorem next_of_finished (pull : τ → StateM σ (Pulled α × τ)) (m : Merge τ α) (s : σ)
    (h : m.finished = true) : m.next cmp pull s = ((.ended, m), s) := by
  rw [next, if_pos h]

/-- A merge of lists, each in ascending order of the key, answers with the stable sort of the lists
put one after the other, and then only that it has ended. -/
theorem answers_eq_mergeSort [Ord κ] [Std.TransOrd κ] (key : α → κ) (lists : List (List α))
    (hlists : ∀ l ∈ lists, l.Pairwise fun x y => (compare (key x) (key y)).isLE = true)
    (calls : Nat) :
    (pullTimes (Merge.next (compareOn key) Supply.next) calls
        (Merge.new (lists.map fun l => Supply.ofList (l.map .ok))) ()).1.1 =
      ((mergeSorted (compareOn key) lists).map Pulled.value ++
        List.replicate calls Pulled.ended).take calls ∧
    StablySorted (compareOn key) lists (mergeSorted (compareOn key) lists) := by
  have hsorted : StablySorted (compareOn key) lists (mergeSorted (compareOn key) lists) :=
    stablySorted_mergeSorted lists
  obtain ⟨out, hout⟩ := Merges.exists_out (compareOn key) lists
  obtain rfl : out = mergeSorted (compareOn key) lists :=
    (hout.stablySorted hlists).unique hsorted
  have hyields : Yields (Merge.next (compareOn key) Supply.next) (fun _ => True)
      (Merge.new (lists.map fun l => Supply.ofList (l.map .ok)))
      (mergeSorted (compareOn key) lists) := by
    refine new_yields (by simp) (fun j t l ht hl => ?_) hout
    rw [List.getElem?_map, hl] at ht
    obtain rfl := Option.some.inj ht
    exact Supply.yields l 0
  have hstays : ∀ (m : Merge (Supply α) α) s, m.finished = true →
      (m.next (compareOn key) Supply.next s).1.1 = .ended ∧
        (m.next (compareOn key) Supply.next s).1.2.finished = true := fun m s h => by
    rw [next_of_finished Supply.next m s h]
    exact ⟨rfl, h⟩
  exact ⟨pullTimes_of_yields (fun m s => finished_of_ended Supply.next m s) hstays calls hyields
    trivial, hsorted⟩

/-- Three lists, the second of them empty, with equal keys within the first and across the others. -/
theorem answers_eq_mergeSort_labelled :
    let lists : List (List (Nat × Char)) :=
      [[(1, 'a'), (2, 'b'), (2, 'c')], [], [(1, 'd'), (2, 'e'), (3, 'f')]]
    let answers := (pullTimes (Merge.next (compareOn Prod.fst) Supply.next) 7
      (Merge.new (lists.map fun l => Supply.ofList (l.map .ok))) ()).1.1
    (∀ l ∈ lists, l.Pairwise fun x y => (compare x.1 y.1).isLE = true) ∧
      answers = [.value (1, 'a'), .value (1, 'd'), .value (2, 'b'), .value (2, 'c'),
        .value (2, 'e'), .value (3, 'f'), .ended] ∧
      answers = ((mergeSorted (compareOn Prod.fst) lists).map Pulled.value ++
        List.replicate 7 Pulled.ended).take 7 := by
  intro lists answers
  have hlists : ∀ l ∈ lists, l.Pairwise fun x y => (compare x.1 y.1).isLE = true := by decide
  exact ⟨hlists, by decide +kernel, (answers_eq_mergeSort Prod.fst lists hlists 7).1⟩

end Merge

end Historian
