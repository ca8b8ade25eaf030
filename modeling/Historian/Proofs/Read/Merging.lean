import Historian.Proofs.Read.Source

/-!
# Merging ordered lists

`Merges cmp lists out` says that `out` comes about by taking the least head of `lists` again and
again, equal heads by the place of their list.

* `Merges.exists_out`, `Merges.unique` — every family of lists can be merged, in one way.
* `Merges.perm`, `Merges.pairwise` — nothing is lost or added, and ordered lists give an ordered one.
* `Merges.take_eq` — the first `n` items depend only on the first `n` items of each list.
* `Merge.new_yields` — a `Merge` of sources gives what the lists of its sources merge to.
-/

set_option autoImplicit false

namespace Historian

variable {σ τ α : Type} {cmp : α → α → Ordering}

/-! ## The order of heads -/

namespace Merge

theorem goesBefore_iff {i j : Nat} {a b : α} :
    goesBefore cmp i a j b = true ↔ cmp a b = .lt ∨ cmp a b = .eq ∧ i < j := by
  unfold goesBefore
  split <;> simp [*]

theorem goesBefore_trans [Std.TransCmp cmp] {i j k : Nat} {a b c : α}
    (h : goesBefore cmp i a j b = true) (h' : goesBefore cmp j b k c = true) :
    goesBefore cmp i a k c = true := by
  rw [goesBefore_iff] at *
  rcases h with h | ⟨h, hij⟩ <;> rcases h' with h' | ⟨h', hjk⟩
  · exact .inl (Std.TransCmp.lt_trans h h')
  · exact .inl (Std.TransCmp.lt_of_lt_of_eq h h')
  · exact .inl (Std.TransCmp.lt_of_eq_of_lt h h')
  · exact .inr ⟨Std.TransCmp.eq_trans h h', Nat.lt_trans hij hjk⟩

theorem goesBefore_total [Std.TransCmp cmp] {i j : Nat} (a b : α) (h : i ≠ j)
    (hn : ¬ goesBefore cmp i a j b = true) : goesBefore cmp j b i a = true := by
  rw [goesBefore_iff] at *
  cases hab : cmp a b with
  | lt => exact absurd (.inl hab) hn
  | eq =>
    have : ¬ i < j := fun hij => hn (.inr ⟨hab, hij⟩)
    exact .inr ⟨Std.OrientedCmp.eq_symm hab, by omega⟩
  | gt => exact .inl (Std.OrientedCmp.lt_of_gt hab)

theorem not_goesBefore_of_goesBefore [Std.TransCmp cmp] {i j : Nat} {a b : α}
    (h : goesBefore cmp i a j b = true) : ¬ goesBefore cmp j b i a = true := by
  intro h'
  have hself := goesBefore_trans h h'
  have heq : cmp a a = .eq := Std.ReflCmp.compare_self
  simp [goesBefore_iff, heq] at hself

theorem isLE_of_goesBefore {i j : Nat} {a b : α} (h : goesBefore cmp i a j b = true) :
    (cmp a b).isLE = true := by
  rcases goesBefore_iff.1 h with h | ⟨h, -⟩ <;> simp [h]

end Merge

open Merge

/-! ## Merged lists -/

/-- The head `a` of list `i` goes before the heads of all others. -/
def IsLeastHead (cmp : α → α → Ordering) (lists : List (List α)) (i : Nat) (a : α) : Prop :=
  ∀ j b ys, lists[j]? = some (b :: ys) → j ≠ i → goesBefore cmp i a j b = true

/-- `out` is what comes of taking the least head again and again. -/
inductive Merges (cmp : α → α → Ordering) : List (List α) → List α → Prop
  | done {lists : List (List α)} (h : ∀ l ∈ lists, l = []) : Merges cmp lists []
  | step {lists : List (List α)} {i : Nat} {a : α} {xs out : List α}
      (hget : lists[i]? = some (a :: xs)) (hleast : IsLeastHead cmp lists i a)
      (rest : Merges cmp (lists.set i xs) out) : Merges cmp lists (a :: out)

/-- There is only one least head. -/
theorem IsLeastHead.unique [Std.TransCmp cmp] {lists : List (List α)} {i j : Nat} {a b : α}
    {xs ys : List α} (hi : lists[i]? = some (a :: xs)) (hj : lists[j]? = some (b :: ys))
    (ha : IsLeastHead cmp lists i a) (hb : IsLeastHead cmp lists j b) : i = j := by
  by_cases hij : i = j
  · exact hij
  · exact absurd (hb i a xs hi hij) (not_goesBefore_of_goesBefore (ha j b ys hj (Ne.symm hij)))

/-- Only the order of the places matters. -/
theorem goesBefore_succ (cmp : α → α → Ordering) (i j : Nat) (a b : α) :
    goesBefore cmp (i + 1) a (j + 1) b = goesBefore cmp i a j b := by
  rw [Bool.eq_iff_iff, goesBefore_iff, goesBefore_iff, Nat.succ_lt_succ_iff]

/-- The first head is least among its list and others. -/
theorem isLeastHead_zero {l : List α} {rest : List (List α)} {a : α} :
    IsLeastHead cmp (l :: rest) 0 a ↔
      ∀ j b ys, rest[j]? = some (b :: ys) → goesBefore cmp 0 a (j + 1) b = true := by
  constructor
  · intro h j b ys hj
    exact h (j + 1) b ys hj (Nat.succ_ne_zero j)
  · intro h j b ys hj hj0
    cases j with
    | zero => exact absurd rfl hj0
    | succ j => exact h j b ys hj

/-- A later head is least if it goes before the first one and is least without it. -/
theorem isLeastHead_succ {l : List α} {rest : List (List α)} {i : Nat} {a : α} :
    IsLeastHead cmp (l :: rest) (i + 1) a ↔
      (∀ b ys, l = b :: ys → goesBefore cmp (i + 1) a 0 b = true) ∧ IsLeastHead cmp rest i a := by
  constructor
  · intro h
    refine ⟨fun b ys hl => h 0 b ys (congrArg some hl) (Nat.succ_ne_zero i).symm,
      fun j b ys hj hij => ?_⟩
    rw [← goesBefore_succ]
    exact h (j + 1) b ys hj fun he => hij (Nat.succ.inj he)
  · rintro ⟨hfirst, hrest⟩ j b ys hj hij
    cases j with
    | zero => exact hfirst b ys (Option.some.inj hj)
    | succ j =>
      rw [goesBefore_succ]
      exact hrest j b ys hj fun he => hij (congrArg Nat.succ he)

/-- Of lists that are not all empty, one has the least head. -/
theorem exists_isLeastHead (cmp : α → α → Ordering) [Std.TransCmp cmp] {lists : List (List α)}
    (h : ∃ l ∈ lists, l ≠ []) :
    ∃ i a xs, lists[i]? = some (a :: xs) ∧ IsLeastHead cmp lists i a := by
  induction lists with
  | nil => simp at h
  | cons l rest ih =>
    by_cases hrest : ∃ l ∈ rest, l ≠ []
    · obtain ⟨i, a, xs, hget, hleast⟩ := ih hrest
      cases l with
      | nil => exact ⟨i + 1, a, xs, hget, isLeastHead_succ.2 ⟨by simp, hleast⟩⟩
      | cons c zs =>
        by_cases hc : goesBefore cmp 0 c (i + 1) a = true
        · refine ⟨0, c, zs, rfl, isLeastHead_zero.2 fun j b ys hj => ?_⟩
          by_cases hij : j = i
          · subst hij
            rw [hget] at hj
            obtain ⟨rfl, -⟩ := List.cons.inj (Option.some.inj hj)
            exact hc
          · refine goesBefore_trans hc ?_
            rw [goesBefore_succ]
            exact hleast j b ys hj hij
        · refine ⟨i + 1, a, xs, hget, isLeastHead_succ.2 ⟨fun b ys hl => ?_, hleast⟩⟩
          obtain ⟨rfl, -⟩ := List.cons.inj hl
          exact goesBefore_total c a (by omega) hc
    · have hempty : ∀ l ∈ rest, l = [] := by
        intro l hl
        by_cases hnil : l = []
        · exact hnil
        · exact absurd ⟨l, hl, hnil⟩ hrest
      obtain ⟨l', hl', hne⟩ := h
      rcases List.mem_cons.1 hl' with rfl | hl'
      · obtain ⟨c, zs, rfl⟩ := List.exists_cons_of_ne_nil hne
        refine ⟨0, c, zs, rfl, isLeastHead_zero.2 fun j b ys hj => ?_⟩
        exact absurd (hempty _ (List.mem_of_getElem? hj)) (by simp)
      · exact absurd (hempty l' hl') hne

/-- Taking the head of a list leaves the rest of all items. -/
theorem flatten_perm_of_head {lists : List (List α)} {i : Nat} {a : α} {xs : List α}
    (hget : lists[i]? = some (a :: xs)) :
    lists.flatten.Perm (a :: (lists.set i xs).flatten) := by
  induction lists generalizing i with
  | nil => simp at hget
  | cons l rest ih =>
    cases i with
    | zero =>
      simp only [List.getElem?_cons_zero, Option.some.injEq] at hget
      subst hget
      exact .refl _
    | succ i =>
      have := ih (by simpa using hget)
      rw [List.set_cons_succ, List.flatten_cons, List.flatten_cons]
      exact (this.append_left l).trans List.perm_middle

namespace Merges

/-- Every family of lists can be merged. -/
theorem exists_out (cmp : α → α → Ordering) [Std.TransCmp cmp] (lists : List (List α)) :
    ∃ out, Merges cmp lists out := by
  by_cases hne : ∃ l ∈ lists, l ≠ []
  · obtain ⟨i, a, xs, hget, hleast⟩ := exists_isLeastHead cmp hne
    have hlength : lists.flatten.length = (lists.set i xs).flatten.length + 1 :=
      (flatten_perm_of_head hget).length_eq
    obtain ⟨out, hout⟩ := exists_out cmp (lists.set i xs)
    exact ⟨a :: out, .step hget hleast hout⟩
  · refine ⟨[], .done fun l hl => Classical.byContradiction fun hnil => hne ⟨l, hl, hnil⟩⟩
termination_by lists.flatten.length
decreasing_by omega

/-- Merging keeps every item and adds none. -/
theorem perm {lists : List (List α)} {out : List α} (h : Merges cmp lists out) :
    out.Perm lists.flatten := by
  induction h with
  | done h => rw [List.flatten_eq_nil_iff.2 h]
  | step hget _ _ ih => exact (ih.cons _).trans (flatten_perm_of_head hget).symm

/-- Ordered lists merge into an ordered one. -/
theorem pairwise [Std.TransCmp cmp] {lists : List (List α)} {out : List α} (h : Merges cmp lists out)
    (hlists : ∀ l ∈ lists, l.Pairwise fun x y => (cmp x y).isLE = true) :
    out.Pairwise fun x y => (cmp x y).isLE = true := by
  induction h with
  | done => exact .nil
  | @step lists i a xs out hget hleast rest ih =>
    have hi := List.pairwise_cons.1 (hlists _ (List.mem_of_getElem? hget))
    have hset : ∀ l ∈ lists.set i xs, l.Pairwise fun x y => (cmp x y).isLE = true := fun l hl => by
      rcases List.mem_or_eq_of_mem_set hl with hl | rfl
      · exact hlists l hl
      · exact hi.2
    refine List.pairwise_cons.2 ⟨fun x hx => ?_, ih hset⟩
    obtain ⟨l, hl, hxl⟩ := List.mem_flatten.1 (rest.perm.mem_iff.1 hx)
    obtain ⟨j, hj⟩ := List.mem_iff_getElem?.1 hl
    by_cases hij : j = i
    · subst hij
      have : l = xs := by
        rw [List.getElem?_set_self (List.getElem?_eq_some_iff.1 hget).1] at hj
        exact (Option.some.inj hj).symm
      exact hi.1 x (this ▸ hxl)
    · rw [List.getElem?_set_ne (Ne.symm hij)] at hj
      cases l with
      | nil => simp at hxl
      | cons b ys =>
        have hab := isLE_of_goesBefore (hleast j b ys hj hij)
        rcases List.mem_cons.1 hxl with rfl | hxl
        · exact hab
        · exact Std.TransCmp.isLE_trans hab
            ((List.pairwise_cons.1 (hlists _ (List.mem_of_getElem? hj))).1 x hxl)

/-- Lists that begin alike have the same heads. -/
theorem exists_of_take_eq {n : Nat} {lists lists' : List (List α)}
    (heq : ∀ i : Nat, lists[i]?.map (List.take (n + 1)) = lists'[i]?.map (List.take (n + 1)))
    {i : Nat} {a : α} {xs : List α} (hget : lists[i]? = some (a :: xs)) :
    ∃ xs', lists'[i]? = some (a :: xs') ∧ xs.take n = xs'.take n := by
  have := heq i
  rw [hget, Option.map_some, eq_comm, Option.map_eq_some_iff] at this
  obtain ⟨l, hl, htake⟩ := this
  cases l with
  | nil => simp at htake
  | cons b ys =>
    simp only [List.take_succ_cons, List.cons.injEq] at htake
    obtain ⟨rfl, htake⟩ := htake
    exact ⟨ys, hl, htake.symm⟩

/-- Without one head that they share, they begin alike one item less far. -/
theorem take_eq_set {n : Nat} {lists lists' : List (List α)}
    (heq : ∀ i : Nat, lists[i]?.map (List.take (n + 1)) = lists'[i]?.map (List.take (n + 1)))
    {i : Nat} {a a' : α} {xs xs' : List α} (hget : lists[i]? = some (a :: xs))
    (hget' : lists'[i]? = some (a' :: xs')) (htake : xs.take n = xs'.take n) (j : Nat) :
    (lists.set i xs)[j]?.map (List.take n) = (lists'.set i xs')[j]?.map (List.take n) := by
  by_cases hij : i = j
  · subst hij
    rw [List.getElem?_set_self (List.getElem?_eq_some_iff.1 hget).1,
      List.getElem?_set_self (List.getElem?_eq_some_iff.1 hget').1]
    simp [htake]
  · have hmin : ∀ l : List α, l.take n = (l.take (n + 1)).take n := fun l => by
      rw [List.take_take, Nat.min_eq_left (Nat.le_succ n)]
    have hthis := congrArg (Option.map (List.take n)) (heq j)
    rw [Option.map_map, Option.map_map] at hthis
    rw [List.getElem?_set_ne hij, List.getElem?_set_ne hij]
    simpa [Function.comp_def, ← hmin] using hthis

/-- The first `n` items depend only on the first `n` items of each list. -/
theorem take_eq [Std.TransCmp cmp] (n : Nat) {lists lists' : List (List α)} {out out' : List α}
    (h : Merges cmp lists out) (h' : Merges cmp lists' out')
    (heq : ∀ i : Nat, lists[i]?.map (List.take n) = lists'[i]?.map (List.take n)) :
    out.take n = out'.take n := by
  induction n generalizing lists lists' out out' with
  | zero => simp
  | succ n ih =>
    cases h with
    | done hnil =>
      cases h' with
      | done => rfl
      | step hget' _ _ =>
        obtain ⟨xs, hget, -⟩ := exists_of_take_eq (fun i => (heq i).symm) hget'
        exact absurd (hnil _ (List.mem_of_getElem? hget)) (by simp)
    | @step _ i a xs out hget hleast rest =>
      -- the head that is least in one family is least in the other
      obtain ⟨xs', hgetOther, htake⟩ := exists_of_take_eq heq hget
      have hleast' : IsLeastHead cmp lists' i a := by
        intro j b ys hj hij
        obtain ⟨zs, hz, -⟩ := exists_of_take_eq (fun i => (heq i).symm) hj
        exact hleast j b zs hz hij
      cases h' with
      | done hnil' => exact absurd (hnil' _ (List.mem_of_getElem? hgetOther)) (by simp)
      | @step _ i' a' ys out' hget' hother rest' =>
        obtain rfl : i = i' := hleast'.unique hgetOther hget' hother
        rw [hgetOther] at hget'
        obtain ⟨rfl, rfl⟩ := List.cons.inj (Option.some.inj hget')
        rw [List.take_succ_cons, List.take_succ_cons,
          ih rest rest' (take_eq_set heq hget hgetOther htake)]

/-- A family of lists merges in one way only. -/
theorem unique [Std.TransCmp cmp] {lists : List (List α)} {out out' : List α}
    (h : Merges cmp lists out) (h' : Merges cmp lists out') : out = out' := by
  have hlength : out'.length = out.length := by rw [h'.perm.length_eq, h.perm.length_eq]
  have htake := take_eq out.length h h' fun _ => rfl
  rwa [List.take_length, ← hlength, List.take_length] at htake

end Merges

/-! ## A merge of sources -/

namespace Merge

theorem mem_insertHead {i j : Nat} {a b : α} {heads : List (Nat × α)} :
    (j, b) ∈ insertHead cmp i a heads ↔ (j, b) = (i, a) ∨ (j, b) ∈ heads := by
  induction heads with
  | nil => simp [insertHead]
  | cons h rest ih =>
    rw [insertHead]
    split
    · simp
    · rw [List.mem_cons, ih, List.mem_cons, or_left_comm]

theorem lt_succ_of_mem_insertHead {place : Nat} {heads : List (Nat × α)}
    (h : ∀ (i : Nat) a, (i, a) ∈ heads → i < place) (b : α) (i : Nat) (a : α)
    (hi : (i, a) ∈ insertHead cmp place b heads) : i < place + 1 := by
  rcases mem_insertHead.1 hi with he | hi
  · rw [Prod.mk.injEq] at he
    omega
  · exact Nat.lt_succ_of_lt (h i a hi)

/-- The heads stand in the order in which they are to be delivered. -/
def Ordered (cmp : α → α → Ordering) (heads : List (Nat × α)) : Prop :=
  heads.Pairwise fun x y => goesBefore cmp x.1 x.2 y.1 y.2 = true

theorem Ordered.insertHead [Std.TransCmp cmp] {heads : List (Nat × α)} (h : Ordered cmp heads)
    {i : Nat} (a : α) (hi : ∀ j b, (j, b) ∈ heads → j ≠ i) :
    Ordered cmp (insertHead cmp i a heads) := by
  induction heads with
  | nil => simp [Ordered, Merge.insertHead]
  | cons head rest ih =>
    obtain ⟨hfirst, hrest⟩ := List.pairwise_cons.1 h
    rw [Merge.insertHead]
    split
    · rename_i hbefore
      refine List.pairwise_cons.2 ⟨fun x hx => ?_, h⟩
      rcases List.mem_cons.1 hx with rfl | hx
      · exact hbefore
      · exact goesBefore_trans hbefore (hfirst x hx)
    · rename_i hbefore
      have hne : i ≠ head.1 := fun he => hi head.1 head.2 List.mem_cons_self he.symm
      refine List.pairwise_cons.2 ⟨fun (j, b) hj => ?_,
        ih hrest fun j b hj => hi j b (List.mem_cons_of_mem _ hj)⟩
      rcases mem_insertHead.1 hj with he | hj
      · rw [Prod.mk.injEq] at he
        exact he.1 ▸ he.2 ▸ goesBefore_total a head.2 hne hbefore
      · exact hfirst (j, b) hj

/-- The first of the heads goes before those of other sources. -/
theorem Ordered.first_goesBefore {i j : Nat} {a b : α} {rest : List (Nat × α)}
    (h : Ordered cmp ((i, a) :: rest)) (hb : (j, b) ∈ (i, a) :: rest) (hij : j ≠ i) :
    goesBefore cmp i a j b = true := by
  rcases List.mem_cons.1 hb with he | hb
  · exact absurd (congrArg Prod.fst he) hij
  · exact (List.pairwise_cons.1 h).1 (j, b) hb

/-- Where a source has one head at most, the heads after the first are those of the other sources. -/
theorem Ordered.mem_rest [Std.TransCmp cmp] {i : Nat} {a : α} {rest : List (Nat × α)}
    (h : Ordered cmp ((i, a) :: rest)) {IsHead : Nat → α → Prop}
    (hmem : ∀ j b, (j, b) ∈ (i, a) :: rest ↔ IsHead j b)
    (hone : ∀ j b c, IsHead j b → IsHead j c → b = c) (j : Nat) (b : α) :
    (j, b) ∈ rest ↔ j ≠ i ∧ IsHead j b := by
  constructor
  · intro hj
    have hb : IsHead j b := (hmem j b).1 (List.mem_cons_of_mem _ hj)
    refine ⟨fun hij => ?_, hb⟩
    -- two heads of one source would be the same head, which does not go before itself
    subst hij
    obtain rfl : a = b := hone j a b ((hmem j a).1 List.mem_cons_self) hb
    have hself := (List.pairwise_cons.1 h).1 (j, a) hj
    exact not_goesBefore_of_goesBefore hself hself
  · rintro ⟨hij, hb⟩
    rcases List.mem_cons.1 ((hmem j b).2 hb) with he | hj
    · exact absurd (congrArg Prod.fst he) hij
    · exact hj

/-- A merge under way: what is left of the list of each source is its head, if there is one, and
what the source still gives. -/
structure Holds (cmp : α → α → Ordering) (pull : τ → StateM σ (Pulled α × τ)) (Intact : σ → Prop)
    (m : Merge τ α) (lists : List (List α)) : Prop where
  finished : m.finished = false
  parked : m.parked = none
  primed : m.primed = true
  length_eq : m.sources.length = lists.length
  ordered : Ordered cmp m.heads
  mem_heads : ∀ (i : Nat) a, (i, a) ∈ m.heads ↔ ∃ xs, lists[i]? = some (a :: xs)
  yields : ∀ (i : Nat) a xs t, lists[i]? = some (a :: xs) → m.sources[i]? = some t →
    Yields pull Intact t xs

namespace Holds

variable {pull : τ → StateM σ (Pulled α × τ)} {Intact : σ → Prop}
  {m : Merge τ α} {lists : List (List α)}

/-- The first of the heads is the least. -/
theorem isLeastHead (h : Holds cmp pull Intact m lists) {i : Nat} {a : α} {rest : List (Nat × α)}
    (hheads : m.heads = (i, a) :: rest) : IsLeastHead cmp lists i a := by
  intro j b ys hj hij
  have hmem : (j, b) ∈ m.heads := (h.mem_heads j b).2 ⟨ys, hj⟩
  have hordered := h.ordered
  rw [hheads] at hmem hordered
  exact hordered.first_goesBefore hmem hij

/-- Once the first head is taken, the others are those of the other lists. -/
theorem mem_rest [Std.TransCmp cmp] (h : Holds cmp pull Intact m lists) {i : Nat} {a : α}
    {rest : List (Nat × α)} (hheads : m.heads = (i, a) :: rest) (j : Nat) (b : α) :
    (j, b) ∈ rest ↔ j ≠ i ∧ ∃ ys, lists[j]? = some (b :: ys) := by
  have hordered := h.ordered
  have hmem := h.mem_heads
  rw [hheads] at hordered hmem
  refine hordered.mem_rest hmem (fun k c d hc hd => ?_) j b
  obtain ⟨xs, hxs⟩ := hc
  obtain ⟨ys, hys⟩ := hd
  rw [hxs] at hys
  exact (List.cons.inj (Option.some.inj hys)).1

/-- The merge after its first head was taken from source `i`, which has given what it had next. -/
theorem afterTake [Std.TransCmp cmp] (h : Holds cmp pull Intact m lists) {i : Nat} {a : α}
    {xs : List α} {rest heads : List (Nat × α)} (hheads : m.heads = (i, a) :: rest)
    (hget : lists[i]? = some (a :: xs)) {t : τ} (hordered : Ordered cmp heads)
    (hmem : ∀ (j : Nat) b, (j, b) ∈ heads ↔
      (j = i ∧ xs.head? = some b) ∨ (j, b) ∈ rest)
    (ht : ∀ b ys, xs = b :: ys → Yields pull Intact t ys) :
    Holds cmp pull Intact { m with sources := m.sources.set i t, heads } (lists.set i xs) where
  finished := h.finished
  parked := h.parked
  primed := h.primed
  length_eq := by simp [h.length_eq]
  ordered := hordered
  mem_heads j b := by
    have hi := (List.getElem?_eq_some_iff.1 hget).1
    rw [hmem, h.mem_rest hheads]
    by_cases hij : j = i
    · subst hij
      cases xs <;> simp [List.getElem?_set_self hi, eq_comm]
    · simp [hij, List.getElem?_set_ne (Ne.symm hij)]
  yields j b ys u hlist hsource := by
    have hi := (List.getElem?_eq_some_iff.1 hget).1
    by_cases hij : i = j
    · subst hij
      rw [List.getElem?_set_self hi] at hlist
      rw [List.getElem?_set_self (h.length_eq ▸ hi)] at hsource
      obtain rfl := Option.some.inj hsource
      exact ht b ys (Option.some.inj hlist)
    · rw [List.getElem?_set_ne hij] at hlist hsource
      exact h.yields j b ys u hlist hsource

/-- A merge under way delivers the least head, and goes on with what is left. -/
theorem deliver_spec [Std.TransCmp cmp] (h : Holds cmp pull Intact m lists) {i : Nat} {a : α}
    {xs : List α} (hget : lists[i]? = some (a :: xs)) (hleast : IsLeastHead cmp lists i a) {s : σ}
    (hs : Intact s) :
    ∃ m' s', m.deliver cmp pull s = ((.value a, m'), s') ∧ Intact s' ∧
      Holds cmp pull Intact m' (lists.set i xs) := by
  have hmem : (i, a) ∈ m.heads := (h.mem_heads i a).2 ⟨xs, hget⟩
  cases hheads : m.heads with
  | nil => simp [hheads] at hmem
  | cons first rest =>
    obtain ⟨j, b⟩ := first
    -- the first head is the least one
    obtain ⟨ys, hj⟩ := (h.mem_heads j b).1 (hheads ▸ List.mem_cons_self)
    obtain rfl : i = j := hleast.unique hget hj (h.isLeastHead hheads)
    rw [hget] at hj
    obtain ⟨rfl, rfl⟩ := List.cons.inj (Option.some.inj hj)
    have hi : i < m.sources.length := h.length_eq ▸ (List.getElem?_eq_some_iff.1 hget).1
    have hsource : m.sources[i]? = some m.sources[i] := List.getElem?_eq_getElem hi
    have hyields := h.yields i a xs _ hget hsource
    have hrest : Ordered cmp rest := (List.pairwise_cons.1 (hheads ▸ h.ordered)).2
    rcases hpull : pull m.sources[i] s with ⟨⟨item, t⟩, s'⟩
    cases xs with
    | nil =>
      obtain ⟨hitem, hs'⟩ := hyields s hs
      rw [hpull] at hitem hs'
      obtain rfl : item = .ended := hitem
      refine ⟨_, s', ?_, hs', h.afterTake (t := t) hheads hget hrest (by simp) (by simp)⟩
      simp only [deliver, hheads, hsource, hpull]
    | cons b ys =>
      obtain ⟨hitem, hs', ht⟩ := hyields s hs
      rw [hpull] at hitem hs' ht
      obtain rfl : item = .value b := hitem
      have hnew : Ordered cmp (insertHead cmp i b rest) :=
        hrest.insertHead b fun j c hj => ((h.mem_rest hheads j c).1 hj).1
      refine ⟨_, s', ?_, hs', h.afterTake (t := t) hheads hget hnew (fun j c => ?_) ?_⟩
      · simp only [deliver, hheads, hsource, hpull]
      · rw [mem_insertHead, Prod.mk.injEq, List.head?_cons, Option.some.injEq, eq_comm (a := b)]
      · rintro _ _ hcons
        obtain ⟨rfl, rfl⟩ := List.cons.inj hcons
        exact ht

/-- A merge under way gives what the lists of its sources merge to. -/
theorem next_yields [Std.TransCmp cmp] {out : List α} :
    ∀ {m : Merge τ α} {lists : List (List α)}, Holds cmp pull Intact m lists →
      Merges cmp lists out → Yields (Merge.next cmp pull) Intact m out := by
  induction out with
  | nil =>
    intro m lists h hout s hs
    have hheads : m.heads = [] := by
      rw [List.eq_nil_iff_forall_not_mem]
      rintro ⟨i, a⟩ hmem
      obtain ⟨xs, hget⟩ := (h.mem_heads i a).1 hmem
      cases hout with
      | done hnil => exact absurd (hnil _ (List.mem_of_getElem? hget)) (by simp)
    simp [next, deliver, h.finished, h.parked, h.primed, hheads, hs]
  | cons a out ih =>
    intro m lists h hout s hs
    cases hout with
    | step hget hleast rest =>
      obtain ⟨m', s', hdeliver, hs', h'⟩ := h.deliver_spec hget hleast hs
      simp only [next, h.finished, h.parked, h.primed, hdeliver, if_true, Bool.false_eq_true,
        if_false]
      exact ⟨trivial, hs', ih h' rest⟩

end Holds

variable {pull : τ → StateM σ (Pulled α × τ)} {Intact : σ → Prop}

/-- The head of one of the lists, whose places are counted from `place`. -/
def HeadAt (place : Nat) (lists : List (List α)) (i : Nat) (a : α) : Prop :=
  ∃ j xs, i = place + j ∧ lists[j]? = some (a :: xs)

theorem headAt_zero {lists : List (List α)} {i : Nat} {a : α} :
    HeadAt 0 lists i a ↔ ∃ xs, lists[i]? = some (a :: xs) := by
  simp [HeadAt]

theorem headAt_nil_cons {place : Nat} {lists : List (List α)} {i : Nat} {a : α} :
    HeadAt place ([] :: lists) i a ↔ HeadAt (place + 1) lists i a := by
  constructor
  · rintro ⟨_ | j, xs, rfl, hj⟩
    · simp at hj
    · exact ⟨j, xs, by omega, hj⟩
  · rintro ⟨j, xs, rfl, hj⟩
    exact ⟨j + 1, xs, by omega, hj⟩

theorem headAt_cons_cons {place : Nat} {b : α} {ys : List α} {lists : List (List α)} {i : Nat}
    {a : α} : HeadAt place ((b :: ys) :: lists) i a ↔
      (i, a) = (place, b) ∨ HeadAt (place + 1) lists i a := by
  constructor
  · rintro ⟨_ | j, xs, rfl, hj⟩
    · obtain ⟨rfl, -⟩ := List.cons.inj (Option.some.inj hj)
      exact .inl rfl
    · exact .inr ⟨j, xs, by omega, hj⟩
  · rintro (he | ⟨j, xs, rfl, hj⟩)
    · rw [Prod.mk.injEq] at he
      obtain ⟨rfl, rfl⟩ := he
      exact ⟨0, ys, rfl, rfl⟩
    · exact ⟨j + 1, xs, by omega, hj⟩

/-- Fetching the first heads takes the first item of every list. -/
theorem prime_spec (cmp : α → α → Ordering) [Std.TransCmp cmp] {sources : List τ} :
    ∀ {lists : List (List α)} (place : Nat) (heads : List (Nat × α)) {s : σ}, Intact s →
      sources.length = lists.length →
      (∀ (j : Nat) t l, sources[j]? = some t → lists[j]? = some l → Yields pull Intact t l) →
      Ordered cmp heads → (∀ (i : Nat) a, (i, a) ∈ heads → i < place) →
      ∃ sources' heads' s', prime cmp pull place sources heads s = ((none, sources', heads'), s') ∧
        Intact s' ∧ sources'.length = lists.length ∧ Ordered cmp heads' ∧
        (∀ (i : Nat) a, (i, a) ∈ heads' ↔ (i, a) ∈ heads ∨ HeadAt place lists i a) ∧
        ∀ (j : Nat) a xs t, lists[j]? = some (a :: xs) → sources'[j]? = some t →
          Yields pull Intact t xs := by
  induction sources with
  | nil =>
    intro lists place heads s hs hlength _ hordered _
    obtain rfl : lists = [] := List.length_eq_zero_iff.1 hlength.symm
    exact ⟨[], heads, s, rfl, hs, rfl, hordered, by simp [HeadAt], by simp⟩
  | cons t sources ih =>
    intro lists place heads s hs hlength hyields hordered hplaces
    cases lists with
    | nil => simp at hlength
    | cons l lists =>
      have ht : Yields pull Intact t l := hyields 0 t l rfl rfl
      have hrest : ∀ (j : Nat) u k, sources[j]? = some u → lists[j]? = some k →
          Yields pull Intact u k := fun j u k hu hk => hyields (j + 1) u k hu hk
      have hlength' : sources.length = lists.length := by simpa using hlength
      rcases hpull : pull t s with ⟨⟨item, t'⟩, s₁⟩
      cases l with
      | nil =>
        obtain ⟨hitem, hs₁⟩ := ht s hs
        rw [hpull] at hitem hs₁
        obtain rfl : item = .ended := hitem
        obtain ⟨sources', heads', s', hprime, hs', hlen, hord, hmem, hleft⟩ :=
          ih (place + 1) _ hs₁ hlength' hrest hordered fun i a hi =>
            Nat.lt_succ_of_lt (hplaces i a hi)
        refine ⟨t' :: sources', heads', s', by simp only [prime, hpull, hprime], hs',
          by simp [hlen], hord, fun i a => ?_, fun j a xs u hj hu => ?_⟩
        · rw [hmem, headAt_nil_cons]
        · cases j with
          | zero => simp at hj
          | succ j => exact hleft j a xs u hj hu
      | cons b ys =>
        obtain ⟨hitem, hs₁, ht'⟩ := ht s hs
        rw [hpull] at hitem hs₁ ht'
        obtain rfl : item = .value b := hitem
        have hnew : ∀ (i : Nat) a, (i, a) ∈ insertHead cmp place b heads → i < place + 1 :=
          lt_succ_of_mem_insertHead hplaces b
        obtain ⟨sources', heads', s', hprime, hs', hlen, hord, hmem, hleft⟩ :=
          ih (place + 1) _ hs₁ hlength' hrest
            (hordered.insertHead b fun j c hj => Nat.ne_of_lt (hplaces j c hj)) hnew
        refine ⟨t' :: sources', heads', s', by simp only [prime, hpull, hprime], hs',
          by simp [hlen], hord, fun i a => ?_, fun j a xs u hj hu => ?_⟩
        · rw [hmem, mem_insertHead, headAt_cons_cons, or_assoc, or_left_comm]
        · cases j with
          | zero =>
            obtain ⟨-, rfl⟩ := List.cons.inj (Option.some.inj hj)
            obtain rfl := Option.some.inj hu
            exact ht'
          | succ j => exact hleft j a xs u hj hu

/-- A merge that has asked for nothing gives what the lists of its sources merge to. -/
theorem new_yields [Std.TransCmp cmp] {sources : List τ} {lists : List (List α)} {out : List α}
    (hlength : sources.length = lists.length)
    (hyields : ∀ (j : Nat) t l, sources[j]? = some t → lists[j]? = some l → Yields pull Intact t l)
    (hout : Merges cmp lists out) :
    Yields (Merge.next cmp pull) Intact (Merge.new sources) out := by
  refine Yields.of_step fun s hs => ?_
  obtain ⟨sources', heads, s', hprime, hs', hlen, hordered, hmem, hleft⟩ :=
    prime_spec cmp 0 [] hs hlength hyields .nil (by simp)
  have h : Holds cmp pull Intact ⟨sources', heads, true, none, false⟩ lists :=
    { finished := rfl, parked := rfl, primed := rfl, length_eq := hlen, ordered := hordered,
      mem_heads := fun i a => by simp [hmem, headAt_zero], yields := hleft }
  refine ⟨_, s', hs', ?_, h.next_yields hout⟩
  simp [next, new, hprime]

end Merge

end Historian
