import Historian.Proofs.Toml.Lines

/-!
# Written tables read back

`Toml.read` gives back every document that `Toml.render` writes, if its tables are `Regular`: keys
need no quotes and do not repeat, scalars come before tables, and no table holds only tables.

* `Last` — the place of a table that is the last one of each table around it, where a header and the
  scalars below it add.
* `leads_scalars`, `leads_tables` — what the reader makes of the texts of a table.
* `read_render` — the document of a written text.
-/

set_option autoImplicit false

namespace Historian.Toml

/-! ## Trees of documents -/

mutual

/-- The tree of a document whose tables all have headers. -/
def treeOf : Document → Tree
  | .table entries => .table .headed (treesOf entries)
  | d => .value d

/-- The trees of a table's entries. -/
def treesOf : List (String × Document) → Entries
  | [] => []
  | (key, d) :: rest => (key, treeOf d) :: treesOf rest

end

mutual

theorem toDocument_treeOf (d : Document) : (treeOf d).toDocument = d := by
  cases d with
  | table entries => rw [treeOf, Tree.toDocument, documentsOf_treesOf entries]
  | _ => rfl

theorem documentsOf_treesOf (entries : List (String × Document)) :
    Tree.documentsOf (treesOf entries) = entries := by
  match entries with
  | [] => rfl
  | (key, d) :: rest =>
    rw [treesOf, Tree.documentsOf, toDocument_treeOf d, documentsOf_treesOf rest]

end

theorem treesOf_append (es fs : List (String × Document)) :
    treesOf (es ++ fs) = treesOf es ++ treesOf fs := by
  induction es with
  | nil => rfl
  | cons e es ih => rw [List.cons_append, treesOf, treesOf, ih, List.cons_append]

theorem map_fst_treesOf (es : List (String × Document)) :
    (treesOf es).map (·.1) = es.map (·.1) := by
  induction es with
  | nil => rfl
  | cons e es ih => rw [treesOf, List.map_cons, List.map_cons, ih]

/-! ## The last table -/

/-- The path leads to the last table of the last table and so on, and `build` gives the root by its
entries. -/
inductive Last : List String → (Entries → Entries) → Prop
  | root : Last [] id
  | inside {path : List String} {build : Entries → Entries} {front : Entries} {key : String}
      (hkey : key ∉ front.map (·.1)) (h : Last path build) :
      Last (key :: path) fun es => front ++ [(key, .table .headed (build es))]

/-- A table that is added to the last one is the last one. -/
theorem Last.add {path : List String} {build : Entries → Entries} (h : Last path build)
    {front : Entries} {key : String} (hkey : key ∉ front.map (·.1)) :
    Last (path ++ [key]) fun es => build (front ++ [(key, .table .headed es)]) := by
  induction h with
  | root => exact .inside hkey .root
  | inside houter _ ih => exact .inside houter ih

theorem lookup_eq_none {entries : Entries} {key : String} (h : key ∉ entries.map (·.1)) :
    entries.lookup key = none := by
  rw [List.lookup_eq_none_iff]
  intro e he
  simp only [bne_iff_ne, ne_eq]
  rintro rfl
  exact h (List.mem_map_of_mem he)

theorem replace_last {entries : Entries} {key : String} (h : key ∉ entries.map (·.1))
    (t t' : Tree) : Tree.replace key t' (entries ++ [(key, t)]) = entries ++ [(key, t')] := by
  have hfront : entries.map (fun e => if e.1 == key then (key, t') else e) = entries.map id := by
    refine List.map_congr_left fun e he => if_neg ?_
    rw [beq_iff_eq]
    rintro rfl
    exact h (List.mem_map_of_mem he)
  rw [Tree.replace, List.map_append, hfront, List.map_id]
  simp

/-- What is done at the end of the path is done to the last table. -/
theorem Last.change_eq {path : List String} {build : Entries → Entries} (h : Last path build)
    (act : Origin → Entries → Option Entries) (es : Entries) :
    Tree.change false act path .headed (build es) = (act .headed es).map build := by
  induction h with
  | root => simp [Tree.change]
  | @inside path build front key hkey h ih =>
    have hlookup : (front ++ [(key, Tree.table .headed (build es))]).lookup key =
        some (.table .headed (build es)) := by
      simp [List.lookup_append, lookup_eq_none hkey]
    rw [Tree.change, hlookup]
    simp only [Bool.false_eq_true, false_and, if_false, ih]
    cases act .headed es with
    | none => rfl
    | some es' => simp [replace_last hkey]

/-! ## Scalars of a table -/

/-- An entry on a line of the table itself. -/
structure ScalarEntry (e : String × Document) : Prop where
  bare : isBareKey e.1 = true
  storable : Scalar.Storable e.2

theorem ScalarEntry.of {key : String} {d : Document} (hkey : isBareKey key = true)
    (h : Scalar.Storable d) : ScalarEntry (key, d) := ⟨hkey, h⟩

theorem treeOf_storable {d : Document} (h : Scalar.Storable d) : treeOf d = .value d := by
  cases h <;> rfl

theorem isScalar_storable {d : Document} (h : Scalar.Storable d) : isScalar d = true := by
  cases h <;> rfl

/-- The scalars of the last table are added to it, one line each. -/
theorem leads_scalars {path : List String} {build : Entries → Entries} (h : Last path build)
    {scalars : List (String × Document)} (hscalars : ∀ e ∈ scalars, ScalarEntry e)
    (front : Entries) (hkeys : (front.map (·.1) ++ scalars.map (·.1)).Nodup) :
    Leads ⟨build front, path⟩ (scalars.flatMap fun e => (scalarLine e.1 e.2).toList)
      ⟨build (front ++ treesOf scalars), path⟩ := by
  induction scalars generalizing front with
  | nil => simpa [treesOf] using Leads.refl _
  | cons e scalars ih =>
    obtain ⟨hbare, hstorable⟩ := hscalars e List.mem_cons_self
    have hfresh : e.1 ∉ front.map (·.1) := by
      intro hmem
      exact (List.nodup_append.1 hkeys).2.2 e.1 hmem e.1 (by simp) rfl
    have hroot : Tree.change false (Tree.insertDotted [] e.1 e.2) path .headed (build front) =
        some (build (front ++ [(e.1, .value e.2)])) := by
      rw [h.change_eq]
      simp [Tree.insertDotted, Tree.change, Tree.setValue, lookup_eq_none hfresh]
    have hline : Leads ⟨build front, path⟩ _ _ := leads_scalarLine hbare hstorable hroot
    have hrest := ih (fun f hf => hscalars f (List.mem_cons_of_mem _ hf))
      (front ++ [(e.1, .value e.2)]) (by simpa using hkeys)
    rw [List.flatMap_cons, treesOf, treeOf_storable hstorable]
    simpa using hline.trans hrest

/-! ## Tables in tables -/

/-- Tables that `render` writes one after the other, inside each other to a given depth. -/
inductive Sections : Nat → List (String × Document) → Prop
  | nil {depth : Nat} : Sections depth []
  | cons {depth : Nat} {key : String} {scalars inner rest : List (String × Document)}
      (hkey : isBareKey key = true) (hscalars : ∀ e ∈ scalars, ScalarEntry e)
      (hheader : scalars = [] → inner = []) (hkeys : ((scalars ++ inner).map (·.1)).Nodup)
      (hinner : Sections depth inner) (hrest : Sections (depth + 1) rest) :
      Sections (depth + 1) ((key, .table (scalars ++ inner)) :: rest)

/-- A table under a header. -/
inductive Section : Nat → Document → Prop
  | intro {depth : Nat} {scalars inner : List (String × Document)}
      (hscalars : ∀ e ∈ scalars, ScalarEntry e) (hheader : scalars = [] → inner = [])
      (hkeys : ((scalars ++ inner).map (·.1)).Nodup) (hinner : Sections depth inner) :
      Section depth (.table (scalars ++ inner))

theorem Sections.push {depth : Nat} (key : String) (hkey : isBareKey key = true) {d : Document}
    (h : Section depth d) {rest : List (String × Document)} (hrest : Sections (depth + 1) rest) :
    Sections (depth + 1) ((key, d) :: rest) := by
  cases h with
  | intro hscalars hheader hkeys hinner =>
    exact .cons hkey hscalars hheader hkeys hinner hrest

/-- A table of scalars only. -/
theorem Section.of_scalars {depth : Nat} {scalars : List (String × Document)}
    (hscalars : ∀ e ∈ scalars, ScalarEntry e) (hkeys : (scalars.map (·.1)).Nodup) :
    Section depth (.table scalars) := by
  have h : Section depth (.table (scalars ++ [])) :=
    .intro hscalars (fun _ => rfl) (by simpa using hkeys) .nil
  rwa [List.append_nil] at h

/-- Texts with an empty line before each. -/
def parted (texts : List String) : List Char := texts.flatMap fun t => '\n' :: t.toList

theorem Sections.isScalar_eq_false {depth : Nat} {tables : List (String × Document)}
    (h : Sections depth tables) : ∀ e ∈ tables, isScalar e.2 = false := by
  induction h with
  | nil => simp
  | cons _ _ _ _ _ _ _ ih =>
    intro e he
    rcases List.mem_cons.1 he with rfl | he
    · rfl
    · exact ih e he

theorem filter_isScalar {scalars inner : List (String × Document)}
    (hscalars : ∀ e ∈ scalars, ScalarEntry e) {depth : Nat} (hinner : Sections depth inner) :
    (scalars ++ inner).filter (fun e => isScalar e.2) = scalars := by
  have hall : scalars.filter (fun e => isScalar e.2) = scalars :=
    List.filter_eq_self.2 fun e he => isScalar_storable (hscalars e he).storable
  have hnone : inner.filter (fun e => isScalar e.2) = [] :=
    List.filter_eq_nil_iff.2 fun e he => by simp [hinner.isScalar_eq_false e he]
  rw [List.filter_append, hall, hnone, List.append_nil]

/-- Scalars have no texts of their own. -/
theorem tablesIn_scalars {path : List String} {scalars inner : List (String × Document)}
    (hscalars : ∀ e ∈ scalars, ScalarEntry e) :
    tablesIn path (scalars ++ inner) = tablesIn path inner := by
  induction scalars with
  | nil => rfl
  | cons e scalars ih =>
    obtain ⟨key, d⟩ := e
    have htexts : tableTexts (path ++ [key]) d = [] := by
      cases (hscalars (key, d) List.mem_cons_self).storable <;> rw [tableTexts] <;> simp
    rw [List.cons_append, tablesIn, htexts, List.nil_append,
      ih fun f hf => hscalars f (List.mem_cons_of_mem _ hf)]

/-- The text of a table: its header and its scalars, then the tables inside it. -/
theorem tableTexts_eq {path : List String} {scalars inner : List (String × Document)}
    (hscalars : ∀ e ∈ scalars, ScalarEntry e) {depth : Nat} (hinner : Sections depth inner)
    (hheader : scalars = [] → inner = []) :
    tableTexts path (.table (scalars ++ inner)) =
      (headerOf path ++ String.join (scalars.map fun e => scalarLine e.1 e.2)) ::
        tablesIn path inner := by
  have hguard : (scalars.isEmpty && !(scalars ++ inner).isEmpty) = false := by
    cases scalars with
    | nil => simp [hheader rfl]
    | cons e scalars => rfl
  rw [tableTexts]
  simp only [filter_isScalar hscalars hinner, tablesIn_scalars hscalars, hguard, Bool.false_eq_true,
    if_false]
  rfl

/-- The texts of tables add them to the last table, with all that is inside them. -/
theorem leads_tables {depth : Nat} {tables : List (String × Document)} (h : Sections depth tables)
    {path : List String} (hpath : ∀ k ∈ path, isBareKey k = true)
    (hdepth : path.length + depth ≤ maxDepth) {build : Entries → Entries} (hlast : Last path build)
    (front : Entries) (hkeys : (front.map (·.1) ++ tables.map (·.1)).Nodup) (header : List String) :
    ∃ header', Leads ⟨build front, header⟩ (parted (tablesIn path tables))
      ⟨build (front ++ treesOf tables), header'⟩ := by
  induction h generalizing path build front header with
  | nil =>
    refine ⟨header, ?_⟩
    simpa [tablesIn, parted, treesOf] using Leads.refl ⟨build front, header⟩
  | @cons depth key scalars inner rest hkey hscalars hheader hinnerKeys hinner hrest ihInner ihRest =>
    have hfresh : key ∉ front.map (·.1) := fun hmem =>
      (List.nodup_append.1 hkeys).2.2 key hmem key (by simp) rfl
    have hpathKey : ∀ k ∈ path ++ [key], isBareKey k = true := by
      intro k hk
      rcases List.mem_append.1 hk with hk | hk
      · exact hpath k hk
      · rw [List.mem_singleton.1 hk]
        exact hkey
    have hlastKey := hlast.add hfresh
    -- the header, and the scalars under it
    have hopen : Tree.change false (Tree.openTable key) path .headed (build front) =
        some (build (front ++ [(key, .table .headed [])])) := by
      rw [hlast.change_eq]
      simp [Tree.openTable, lookup_eq_none hfresh]
    have hheaderLine : Leads ⟨build front, header⟩ _ _ := leads_headerOf hpathKey (by omega) hopen
    have hscalarLines := leads_scalars hlastKey hscalars [] (by
      rw [List.map_append] at hinnerKeys
      exact (List.nodup_append.1 hinnerKeys).1)
    -- the tables inside it
    obtain ⟨header', hinnerTexts⟩ := ihInner hpathKey (by simp; omega) hlastKey
      (treesOf scalars) (by rw [map_fst_treesOf, ← List.map_append]; exact hinnerKeys)
      (path ++ [key])
    -- the tables after it
    obtain ⟨header'', hrestTexts⟩ := ihRest hpath hdepth hlast
      (front ++ [(key, .table .headed (treesOf scalars ++ treesOf inner))])
      (by simpa using hkeys) header'
    refine ⟨header'', ?_⟩
    have htext : parted (tablesIn path ((key, .table (scalars ++ inner)) :: rest)) =
        ['\n'] ++ ((headerOf (path ++ [key])).toList ++
          ((scalars.flatMap fun e => (scalarLine e.1 e.2).toList) ++
            (parted (tablesIn (path ++ [key]) inner) ++ parted (tablesIn path rest)))) := by
      rw [tablesIn, tableTexts_eq hscalars hinner hheader]
      simp [parted, List.flatMap_map]
    have htree : front ++ treesOf ((key, .table (scalars ++ inner)) :: rest) =
        front ++ [(key, .table .headed (treesOf scalars ++ treesOf inner))] ++ treesOf rest := by
      rw [treesOf, treeOf, treesOf_append, List.append_assoc]
      rfl
    rw [htext, htree]
    exact (leads_blank _).trans <| hheaderLine.trans <| hscalarLines.trans <|
      hinnerTexts.trans hrestTexts

/-! ## Documents -/

/-- A table that `render` writes so that it is read back. -/
inductive Regular : Document → Prop
  | intro {scalars tables : List (String × Document)} (hscalars : ∀ e ∈ scalars, ScalarEntry e)
      (htables : Sections maxDepth tables) (hkeys : ((scalars ++ tables).map (·.1)).Nodup) :
      Regular (.table (scalars ++ tables))

/-- A table of tables only. -/
theorem Regular.of_sections {tables : List (String × Document)} (htables : Sections maxDepth tables)
    (hkeys : (tables.map (·.1)).Nodup) : Regular (.table tables) := by
  have h : Regular (.table ([] ++ tables)) := .intro (List.forall_mem_nil _) htables hkeys
  rwa [List.nil_append] at h

/-- The texts that `render` joins. -/
def textsOf (scalars tables : List (String × Document)) : List String :=
  (if scalars.isEmpty then [] else [String.join (scalars.map fun e => scalarLine e.1 e.2)]) ++
    tablesIn [] tables

theorem render_eq {scalars tables : List (String × Document)}
    (hscalars : ∀ e ∈ scalars, ScalarEntry e) {depth : Nat} (htables : Sections depth tables) :
    render (.table (scalars ++ tables)) = String.intercalate "\n" (textsOf scalars tables) := by
  rw [render]
  simp only [filter_isScalar hscalars htables, tablesIn_scalars hscalars, textsOf]

/-- The texts that a document is joined from make its tree. -/
theorem leads_document {scalars tables : List (String × Document)}
    (hscalars : ∀ e ∈ scalars, ScalarEntry e) (htables : Sections maxDepth tables)
    (hkeys : ((scalars ++ tables).map (·.1)).Nodup) :
    ∃ header, Leads ⟨[], []⟩ (parted (textsOf scalars tables))
      ⟨treesOf (scalars ++ tables), header⟩ := by
  rw [List.map_append] at hkeys
  obtain ⟨header, hafter⟩ := leads_tables htables (by simp) (by simp) .root
    (treesOf scalars) (by rw [map_fst_treesOf]; exact hkeys) []
  have hbefore : Leads ⟨[], []⟩
      (parted (if scalars.isEmpty then []
        else [String.join (scalars.map fun e => scalarLine e.1 e.2)])) ⟨treesOf scalars, []⟩ := by
    have hlines := leads_scalars .root hscalars [] (List.nodup_append.1 hkeys).1
    cases scalars with
    | nil => exact hlines
    | cons e scalars =>
      have := (leads_blank ⟨[], []⟩).trans hlines
      simpa [parted, List.flatMap_map] using this
  refine ⟨header, ?_⟩
  rw [parted, textsOf, List.flatMap_append, treesOf_append]
  exact hbefore.trans hafter

/-- Joining texts leaves out the first of the empty lines before them. -/
theorem parted_eq {texts : List String} (h : texts ≠ []) :
    parted texts = '\n' :: (String.intercalate "\n" texts).toList := by
  induction texts with
  | nil => exact absurd rfl h
  | cons t texts ih =>
    cases texts with
    | nil => simp [parted]
    | cons u texts =>
      rw [parted, List.flatMap_cons, ← parted, ih (by simp), String.intercalate_cons_cons]
      simp

/-- The empty line before the first text changes nothing. -/
theorem lines_intercalate {texts : List String} {st st' : State} (h : Leads st (parted texts) st') :
    lines ((String.intercalate "\n" texts).toList.length + 1) st
      (String.intercalate "\n" texts).toList = some st' := by
  have hlines := h.lines_eq
  by_cases htexts : texts = []
  · rw [htexts] at hlines ⊢
    exact hlines
  · rw [parted_eq htexts] at hlines
    exact hlines

/-- No text that is read begins with a byte order mark. -/
theorem lines_mark (fuel : Nat) (st : State) (rest : List Char) :
    lines fuel st ('\ufeff' :: rest) = none := by
  cases fuel with
  | zero => rfl
  | succ fuel => rfl

/-- What is written is read back. -/
theorem read_render {d : Document} (h : Regular d) : read (render d) = some d := by
  cases h with
  | @intro scalars tables hscalars htables hkeys =>
    obtain ⟨header, hleads⟩ := leads_document hscalars htables hkeys
    have hlines := lines_intercalate hleads
    rw [← render_eq hscalars htables] at hlines
    rw [read]
    split
    · rename_i rest hmark
      rw [hmark, lines_mark] at hlines
      cases hlines
    · rw [hlines, Option.map_some, Tree.toDocument, documentsOf_treesOf]

/-! ## What is written -/

mutual

/-- A document without the entries that are null. -/
def withoutNulls : Document → Document
  | .table entries => .table (entriesWithoutNulls entries)
  | d => d

/-- The entries that are not null. -/
def entriesWithoutNulls : List (String × Document) → List (String × Document)
  | [] => []
  | (_, .null) :: rest => entriesWithoutNulls rest
  | (key, d) :: rest => (key, withoutNulls d) :: entriesWithoutNulls rest

end

mutual

/-- The whole numbers in a document. -/
def numbersOf : Document → List Int
  | .integer n => [n]
  | .table entries => numbersIn entries
  | _ => []

/-- The whole numbers in the entries of a table. -/
def numbersIn : List (String × Document) → List Int
  | [] => []
  | (_, d) :: rest => numbersOf d ++ numbersIn rest

end

mutual

theorem storable?_eq_some {d d' : Document} (h : storable? d = some d') :
    d' = withoutNulls d ∧ ∀ n ∈ numbersOf d, fitsSigned 64 n = true := by
  cases d with
  | integer n =>
    rw [storable?] at h
    split at h
    · cases h
      exact ⟨rfl, by simpa [numbersOf] using by assumption⟩
    · cases h
  | table entries =>
    rw [storable?, Option.map_eq_some_iff] at h
    obtain ⟨es, hes, rfl⟩ := h
    obtain ⟨rfl, hfits⟩ := storableEntries?_eq_some hes
    exact ⟨rfl, hfits⟩
  | bool b => cases h; exact ⟨rfl, by simp [numbersOf]⟩
  | text s => cases h; exact ⟨rfl, by simp [numbersOf]⟩
  | null => cases h
  | real x => cases h
  | brokenText => cases h
  | list items => cases h

theorem storableEntries?_eq_some {entries es : List (String × Document)}
    (h : storableEntries? entries = some es) :
    es = entriesWithoutNulls entries ∧ ∀ n ∈ numbersIn entries, fitsSigned 64 n = true := by
  match entries with
  | [] => cases h; exact ⟨rfl, by simp [numbersIn]⟩
  | (key, d) :: rest =>
    by_cases hd : d = .null
    · rw [hd] at h ⊢
      have h : storableEntries? rest = some es := h
      obtain ⟨rfl, hfits⟩ := storableEntries?_eq_some h
      exact ⟨rfl, hfits⟩
    · have hwithout : entriesWithoutNulls ((key, d) :: rest) =
          (key, withoutNulls d) :: entriesWithoutNulls rest := by
        rw [entriesWithoutNulls]
        exact hd
      rw [storableEntries?] at h
      · simp only [Option.bind_eq_bind, Option.bind_eq_some_iff, Option.pure_def,
          Option.some.injEq] at h
        obtain ⟨d', hd', fs, hfs, rfl⟩ := h
        obtain ⟨rfl, hfits⟩ := storable?_eq_some hd'
        obtain ⟨rfl, hfitsRest⟩ := storableEntries?_eq_some hfs
        refine ⟨hwithout.symm, fun n hn => ?_⟩
        rcases List.mem_append.1 hn with hn | hn
        · exact hfits n hn
        · exact hfitsRest n hn
      · exact hd

end

/-- A written text is read back without the entries that were null. -/
theorem read_write {d : Document} {text : String} (h : write d = some text)
    (hregular : (∀ n ∈ numbersOf d, fitsSigned 64 n = true) → Regular (withoutNulls d)) :
    read text = some (withoutNulls d) := by
  rw [write, Option.map_eq_some_iff] at h
  obtain ⟨d', hd', rfl⟩ := h
  obtain ⟨rfl, hfits⟩ := storable?_eq_some hd'
  exact read_render (hregular hfits)

end Historian.Toml
