/-!
# Finite maps kept as ascending lists

A `SortedMap κ ν` is the list of its entries in strictly ascending key order, so two maps with the
same entries are equal and every walk over a map is a walk over its keys in order.

## Main statements

* `get?_insert`, `get?_filter` — what a write and a removal do to each look-up.
* `mem_entries_iff` — an entry is listed exactly when a look-up of its key gives its value.
* `ext_get?` — a map is determined by its look-ups.
-/

set_option autoImplicit false

namespace Historian

/-- A finite map from `κ` to `ν`, listed by strictly ascending key. -/
structure SortedMap (κ ν : Type) [Ord κ] where
  entries : List (κ × ν)
  ascending : entries.Pairwise fun a b => compare a.1 b.1 = .lt

namespace SortedMap

variable {κ ν : Type} [Ord κ]

/-- The map without entries. -/
def empty : SortedMap κ ν := ⟨[], .nil⟩

instance : Inhabited (SortedMap κ ν) := ⟨empty⟩

/-- The keys, ascending. -/
def keys (m : SortedMap κ ν) : List κ := m.entries.map (·.1)

/-- The values, by ascending key. -/
def values (m : SortedMap κ ν) : List ν := m.entries.map (·.2)

/-- The number of entries. -/
def size (m : SortedMap κ ν) : Nat := m.entries.length

/-- The value filed under `k` in a list of entries. -/
def lookupIn (k : κ) : List (κ × ν) → Option ν
  | [] => none
  | e :: rest => if compare k e.1 = .eq then some e.2 else lookupIn k rest

/-- The value filed under `k`. -/
def get? (m : SortedMap κ ν) (k : κ) : Option ν := lookupIn k m.entries

/-- Whether something is filed under `k`. -/
def contains (m : SortedMap κ ν) (k : κ) : Bool := (m.get? k).isSome

/-- Files `v` under `k` in an ascending list, in place of what was there. -/
def insertIn (k : κ) (v : ν) : List (κ × ν) → List (κ × ν)
  | [] => [(k, v)]
  | e :: rest =>
    match compare k e.1 with
    | .lt => (k, v) :: e :: rest
    | .eq => (k, v) :: rest
    | .gt => e :: insertIn k v rest

theorem mem_insertIn {k : κ} {v : ν} {l : List (κ × ν)} {x : κ × ν}
    (h : x ∈ insertIn k v l) : x = (k, v) ∨ x ∈ l := by
  induction l with
  | nil => simpa [insertIn] using h
  | cons e rest ih =>
    rw [insertIn] at h
    split at h
    · simpa using h
    · rcases List.mem_cons.1 h with h | h
      · exact .inl h
      · exact .inr (List.mem_cons_of_mem _ h)
    · rcases List.mem_cons.1 h with h | h
      · exact .inr (h ▸ List.mem_cons_self)
      · exact (ih h).imp_right (List.mem_cons_of_mem _)

section Lawful

variable [Std.TransOrd κ] [Std.LawfulEqOrd κ]

theorem ascending_insertIn (k : κ) (v : ν) {l : List (κ × ν)}
    (h : l.Pairwise fun a b => compare a.1 b.1 = .lt) :
    (insertIn k v l).Pairwise fun a b => compare a.1 b.1 = .lt := by
  induction l with
  | nil => simp [insertIn]
  | cons e rest ih =>
    rw [List.pairwise_cons] at h
    rw [insertIn]
    split
    · rename_i hk
      refine List.pairwise_cons.2 ⟨fun x hx => ?_, List.pairwise_cons.2 h⟩
      rcases List.mem_cons.1 hx with rfl | hx
      · exact hk
      · exact Std.TransCmp.lt_trans hk (h.1 x hx)
    · rename_i hk
      have : k = e.1 := Std.LawfulEqOrd.compare_eq_iff_eq.1 hk
      exact List.pairwise_cons.2 ⟨fun x hx => by simpa [this] using h.1 x hx, h.2⟩
    · rename_i hk
      refine List.pairwise_cons.2 ⟨fun x hx => ?_, ih h.2⟩
      rcases mem_insertIn hx with rfl | hx
      · rw [Std.OrientedOrd.eq_swap, hk]
        rfl
      · exact h.1 x hx

/-- Files `v` under `k`, in place of what was there. -/
def insert (m : SortedMap κ ν) (k : κ) (v : ν) : SortedMap κ ν :=
  ⟨insertIn k v m.entries, ascending_insertIn k v m.ascending⟩

/-- Files each pair in turn, so the last of several with one key stays. -/
def insertMany (m : SortedMap κ ν) (pairs : List (κ × ν)) : SortedMap κ ν :=
  pairs.foldl (fun m e => m.insert e.1 e.2) m

/-- The map of a list of pairs; the last of several with one key stays. -/
def ofList (pairs : List (κ × ν)) : SortedMap κ ν := empty.insertMany pairs

/-- The distinct keys of a list, ascending. -/
def distinct (ks : List κ) : List κ := (ofList (ks.map fun k => (k, ()))).keys

end Lawful

/-- Keeps the entries that `keep` accepts. -/
def filter (m : SortedMap κ ν) (keep : κ → ν → Bool) : SortedMap κ ν :=
  ⟨m.entries.filter fun e => keep e.1 e.2, m.ascending.filter _⟩

/-- Replaces every value, keeping the keys. -/
def mapValues {μ : Type} (m : SortedMap κ ν) (f : κ → ν → μ) : SortedMap κ μ :=
  ⟨m.entries.map fun e => (e.1, f e.1 e.2), List.pairwise_map.2 m.ascending⟩

/-! ## Look-ups -/

@[simp] theorem entries_empty : (empty : SortedMap κ ν).entries = [] := rfl

@[simp] theorem get?_empty (k : κ) : (empty : SortedMap κ ν).get? k = none := rfl

@[simp] theorem entries_filter (m : SortedMap κ ν) (keep : κ → ν → Bool) :
    (m.filter keep).entries = m.entries.filter fun e => keep e.1 e.2 := rfl

@[simp] theorem keys_mapValues {μ : Type} (m : SortedMap κ ν) (f : κ → ν → μ) :
    (m.mapValues f).keys = m.keys := by
  simp [keys, mapValues]

section Lawful

variable [Std.TransOrd κ] [Std.LawfulEqOrd κ]

omit [Std.TransOrd κ] in
theorem lookupIn_insertIn (k k' : κ) (v : ν) (l : List (κ × ν)) :
    lookupIn k' (insertIn k v l) = if compare k' k = .eq then some v else lookupIn k' l := by
  induction l with
  | nil => simp [insertIn, lookupIn]
  | cons e rest ih =>
    rw [insertIn]
    split
    · simp [lookupIn]
    · rename_i hk
      obtain rfl : k = e.1 := Std.LawfulEqOrd.compare_eq_iff_eq.1 hk
      by_cases h : compare k' e.1 = .eq <;> simp [lookupIn, h]
    · rename_i hk
      by_cases h : compare k' e.1 = .eq
      · obtain rfl : k' = e.1 := Std.LawfulEqOrd.compare_eq_iff_eq.1 h
        have : ¬ compare e.1 k = .eq := fun he => by
          rw [← Std.LawfulEqOrd.compare_eq_iff_eq.1 he] at hk
          simp at hk
        simp [lookupIn, this]
      · simp [lookupIn, h, ih]

/-- A write is seen under its own key and nowhere else. -/
theorem get?_insert (m : SortedMap κ ν) (k k' : κ) (v : ν) :
    (m.insert k v).get? k' = if compare k' k = .eq then some v else m.get? k' :=
  lookupIn_insertIn k k' v m.entries

omit [Std.TransOrd κ] in
theorem lookupIn_eq_some_iff {l : List (κ × ν)} {k : κ} {v : ν}
    (h : l.Pairwise fun a b => compare a.1 b.1 = .lt) : lookupIn k l = some v ↔ (k, v) ∈ l := by
  induction l with
  | nil => simp [lookupIn]
  | cons e rest ih =>
    rw [List.pairwise_cons] at h
    by_cases hk : compare k e.1 = .eq
    · obtain rfl : k = e.1 := Std.LawfulEqOrd.compare_eq_iff_eq.1 hk
      have : (e.1, v) ∉ rest := fun hm => by simpa using h.1 _ hm
      simp only [lookupIn, hk, if_true, List.mem_cons, this, or_false, Option.some.injEq]
      exact ⟨fun hv => Prod.ext rfl hv.symm, fun he => (congrArg Prod.snd he).symm⟩
    · have : ¬ (k, v) = e := fun he => hk (by simp [← he])
      simp [lookupIn, hk, this, ih h.2]

omit [Std.TransOrd κ] in
/-- An entry is listed exactly when its key is looked up to its value. -/
theorem mem_entries_iff {m : SortedMap κ ν} {k : κ} {v : ν} :
    (k, v) ∈ m.entries ↔ m.get? k = some v :=
  (lookupIn_eq_some_iff m.ascending).symm

omit [Std.TransOrd κ] in
theorem mem_keys_iff {m : SortedMap κ ν} {k : κ} : k ∈ m.keys ↔ (m.get? k).isSome := by
  rw [keys, List.mem_map, Option.isSome_iff_exists]
  constructor
  · rintro ⟨e, he, rfl⟩
    exact ⟨e.2, mem_entries_iff.1 he⟩
  · rintro ⟨v, hv⟩
    exact ⟨(k, v), mem_entries_iff.2 hv, rfl⟩

omit [Std.TransOrd κ] in
theorem mem_values_iff {m : SortedMap κ ν} {v : ν} : v ∈ m.values ↔ ∃ k, m.get? k = some v := by
  rw [values, List.mem_map]
  constructor
  · rintro ⟨e, he, rfl⟩
    exact ⟨e.1, mem_entries_iff.1 he⟩
  · rintro ⟨k, hk⟩
    exact ⟨(k, v), mem_entries_iff.2 hk, rfl⟩

omit [Std.TransOrd κ] in
theorem nodup_keys (m : SortedMap κ ν) : m.keys.Nodup :=
  List.pairwise_map.2 (m.ascending.imp fun h he => by simp [he] at h)

omit [Std.TransOrd κ] in
theorem get?_mapValues {μ : Type} (m : SortedMap κ ν) (f : κ → ν → μ) (k : κ) :
    (m.mapValues f).get? k = (m.get? k).map (f k) := by
  apply Option.ext
  intro v
  rw [← mem_entries_iff]
  simp only [mapValues, List.mem_map, Prod.mk.injEq, Option.map_eq_some_iff]
  constructor
  · rintro ⟨e, he, rfl, rfl⟩
    exact ⟨e.2, mem_entries_iff.1 he, rfl⟩
  · rintro ⟨u, hu, rfl⟩
    exact ⟨(k, u), mem_entries_iff.2 hu, rfl, rfl⟩

omit [Std.TransOrd κ] in
/-- Removal hides the entries it rejects and no others. -/
theorem get?_filter (m : SortedMap κ ν) (keep : κ → ν → Bool) (k : κ) :
    (m.filter keep).get? k = (m.get? k).filter (keep k) := by
  apply Option.ext
  intro v
  rw [← mem_entries_iff]
  simp [mem_entries_iff, Option.filter_eq_some_iff]

/-- Equal look-ups make equal maps. -/
theorem ext_get? {m n : SortedMap κ ν} (h : ∀ k, m.get? k = n.get? k) : m = n := by
  have hmem : ∀ e, e ∈ m.entries ↔ e ∈ n.entries := fun e => by
    rw [mem_entries_iff (k := e.1) (v := e.2), mem_entries_iff (k := e.1) (v := e.2), h]
  have nodup : ∀ {l : List (κ × ν)}, l.Pairwise (fun a b => compare a.1 b.1 = .lt) → l.Nodup :=
    fun hl => hl.imp fun hab he => by simp [he] at hab
  have hperm : m.entries.Perm n.entries :=
    (List.perm_ext_iff_of_nodup (nodup m.ascending) (nodup n.ascending)).2 hmem
  have : m.entries = n.entries :=
    hperm.eq_of_pairwise (fun a b _ _ hab hba => by
      have : compare a.1 a.1 = .lt := Std.TransCmp.lt_trans hab hba
      simp at this) m.ascending n.ascending
  cases m
  cases n
  simp_all

end Lawful

end SortedMap

end Historian
