import Historian.Proofs.Toml.Scalars

/-!
# Written lines read back

A text `Leads` the reader from one state to another if it does so whatever follows it, and takes no
more lines than it has characters.  The three kinds of lines that `Toml.render` writes do:

* `leads_scalarLine` — the entry of a scalar under a key without quotes.
* `leads_headerOf` — a header whose keys need no quotes.
* `leads_blank` — an empty line.
-/

set_option autoImplicit false

namespace Historian.Toml

/-! ## Keys -/

theorem isBare_of_isBareKey {key : String} (h : isBareKey key = true) :
    ∀ c ∈ key.toList, isBare c = true := by
  simp only [isBareKey, Bool.and_eq_true, List.all_eq_true] at h
  exact h.2

/-- A key without quotes begins with a character of its own. -/
theorem exists_of_isBareKey {key : String} (h : isBareKey key = true) :
    ∃ c cs, key.toList = c :: cs ∧ isBare c = true := by
  cases hkey : key.toList with
  | nil =>
    have : key = "" := String.toList_inj.1 hkey
    simp [this, isBareKey] at h
  | cons c cs => exact ⟨c, cs, rfl, isBare_of_isBareKey h c (hkey ▸ List.mem_cons_self)⟩

theorem writeKey_of_isBareKey {key : String} (h : isBareKey key = true) : writeKey key = key := by
  rw [writeKey, if_pos h]

theorem simpleKey_bare {key : String} (h : isBareKey key = true) {c : Char} (hc : isBare c = false)
    (rest : List Char) : simpleKey (key.toList ++ c :: rest) = some (key, c :: rest) := by
  obtain ⟨d, ds, hkey, -⟩ := exists_of_isBareKey h
  have hbare := isBare_of_isBareKey h
  have htake : (key.toList ++ c :: rest).takeWhile isBare = key.toList := by
    rw [List.takeWhile_append_of_pos hbare, List.takeWhile_cons_of_neg (by simp [hc]),
      List.append_nil]
  have hdrop : (key.toList ++ c :: rest).dropWhile isBare = c :: rest := by
    rw [List.dropWhile_append_of_pos hbare, List.dropWhile_cons_of_neg (by simp [hc])]
  rw [simpleKey, htake, hdrop]
  rw [hkey]
  simp only [← hkey, String.ofList_toList]

/-- The characters of keys are neither blanks nor marks of lines. -/
theorem ne_of_isBare {c d : Char} (hc : isBare c = true) (hd : isBare d = false) : c ≠ d := by
  rintro rfl
  rw [hc] at hd
  cases hd

theorem isBlank_of_isBare {c : Char} (hc : isBare c = true) : isBlank c = false := by
  have hspace := ne_of_isBare (d := ' ') hc (by decide)
  have htab := ne_of_isBare (d := '\t') hc (by decide)
  simp [isBlank, hspace, htab]

theorem skip_bare {c : Char} (hc : isBare c = true) (rest : List Char) :
    skip (c :: rest) = c :: rest := by
  rw [skip, List.dropWhile_cons_of_neg (by simp [isBlank_of_isBare hc])]

/-- The keys of a path with points between them. -/
def pathText (path : List String) : List Char := (String.intercalate "." (path.map writeKey)).toList

theorem pathText_singleton {key : String} (h : isBareKey key = true) :
    pathText [key] = key.toList := by
  rw [pathText, List.map_singleton, String.intercalate_singleton, writeKey_of_isBareKey h]

theorem pathText_cons {key next : String} (h : isBareKey key = true) (path : List String) :
    pathText (key :: next :: path) = key.toList ++ '.' :: pathText (next :: path) := by
  rw [pathText, List.map_cons, List.map_cons, String.intercalate_cons_cons,
    writeKey_of_isBareKey h, String.toList_append, String.toList_append, List.append_assoc]
  rfl

theorem exists_pathText {key : String} {path : List String} (h : isBareKey key = true) :
    ∃ c cs, pathText (key :: path) = c :: cs ∧ isBare c = true := by
  obtain ⟨c, cs, hkey, hc⟩ := exists_of_isBareKey h
  cases path with
  | nil => exact ⟨c, cs, by rw [pathText_singleton h, hkey], hc⟩
  | cons next path =>
    exact ⟨c, cs ++ '.' :: pathText (next :: path), by rw [pathText_cons h, hkey]; rfl, hc⟩

/-- The parts of a path are read up to a character that belongs to no key. -/
theorem keyParts_pathText {c : Char} {rest : List Char} (hc : isBare c = false)
    (hdot : (skip (c :: rest)).head? ≠ some '.') {path : List String} (hpath : path ≠ [])
    (hbare : ∀ key ∈ path, isBareKey key = true) {fuel : Nat} (hfuel : path.length ≤ fuel) :
    keyParts fuel (pathText path ++ c :: rest) = some (path, skip (c :: rest)) := by
  induction path generalizing fuel with
  | nil => exact absurd rfl hpath
  | cons key path ih =>
    have hkey := hbare key List.mem_cons_self
    obtain ⟨d, ds, hds, hd⟩ := exists_of_isBareKey hkey
    have hskip : ∀ left, skip (key.toList ++ left) = key.toList ++ left := by
      intro left
      rw [hds, List.cons_append, skip_bare hd]
    obtain ⟨fuel, rfl⟩ : ∃ k, fuel = k + 1 := ⟨fuel - 1, by simp at hfuel; omega⟩
    cases path with
    | nil =>
      rw [pathText_singleton hkey, keyParts, hskip, simpleKey_bare hkey hc]
      simp only [Option.bind_eq_bind, Option.bind_some]
      cases hleft : skip (c :: rest) with
      | nil => rfl
      | cons e left =>
        have he : e ≠ '.' := by
          rintro rfl
          rw [hleft] at hdot
          exact hdot rfl
        simp [he]
    | cons next path =>
      have hrest := ih (by simp) (fun k hk => hbare k (List.mem_cons_of_mem _ hk))
        (Nat.le_of_succ_le_succ hfuel)
      have hpoint : ∀ left, skip ('.' :: left) = '.' :: left := fun _ => rfl
      rw [pathText_cons hkey, List.append_assoc, List.cons_append, keyParts, hskip,
        simpleKey_bare hkey (by decide)]
      simp only [Option.bind_eq_bind, Option.bind_some, hpoint, hrest]
      rfl

theorem dottedKey_pathText {c : Char} {rest : List Char} (hc : isBare c = false)
    (hdot : (skip (c :: rest)).head? ≠ some '.') {path : List String} {key : String}
    (hbare : ∀ k ∈ path ++ [key], isBareKey k = true) (hdepth : path.length < maxDepth) :
    dottedKey (pathText (path ++ [key]) ++ c :: rest) = some (path, key, skip (c :: rest)) := by
  have hlength : (path ++ [key]).length ≤ maxDepth := by
    rw [List.length_append]
    exact hdepth
  rw [dottedKey, keyParts_pathText hc hdot (by simp) hbare hlength]
  simp

/-! ## Lines -/

theorem lineEnd_newline (rest : List Char) : lineEnd ('\n' :: rest) = some rest := rfl

/-- No scalar begins with a blank. -/
theorem skip_scalarText {d : Document} (h : Scalar.Storable d) (rest : List Char) :
    skip (scalarText d ++ '\n' :: rest) = scalarText d ++ '\n' :: rest := by
  have hquote : ∀ cs, skip (Quoting.quote cs ++ '\n' :: rest) = Quoting.quote cs ++ '\n' :: rest := by
    intro cs
    obtain ⟨left, hleft | hleft⟩ := Quoting.exists_quote cs <;> rw [hleft] <;> rfl
  cases h with
  | @integer n h =>
    obtain ⟨c, cs, htext, hc⟩ := Scalar.exists_repr n
    have hbare : isBare c = true := by
      rcases hc with rfl | hc
      · rfl
      · simp [isBare, Char.isAlphanum, hc]
    rw [scalarText, htext, List.cons_append, skip_bare hbare]
  | bool b => cases b <;> rfl
  | text s => exact hquote s.toList

theorem scalarLine_eq {key : String} (hkey : isBareKey key = true) {d : Document}
    (h : Scalar.Storable d) :
    (scalarLine key d).toList = key.toList ++ ' ' :: '=' :: ' ' :: (scalarText d ++ ['\n']) := by
  cases h with
  | integer h =>
    simp [scalarLine, scalarText, writeKey_of_isBareKey hkey, -Int.toString_eq_repr]
  | bool b => cases b <;> simp [scalarLine, scalarText, writeKey_of_isBareKey hkey]
  | text s => simp [scalarLine, scalarText, writeKey_of_isBareKey hkey, Quoting.write]

/-- A line that begins with a key gives it a value. -/
theorem line_bare {c : Char} (hc : isBare c = true) (st : State) (rest : List Char) :
    line st (c :: rest) = keyLine st (c :: rest) := by
  have hopen := ne_of_isBare (d := '[') hc (by decide)
  have hhash := ne_of_isBare (d := '#') hc (by decide)
  have hnewline : newline? (c :: rest) = none :=
    Quoting.newline?_eq_none (ne_of_isBare hc (by decide)) (ne_of_isBare hc (by decide))
  rw [line, hnewline]
  · exact fun _ heq => hopen (List.cons.inj heq).1
  · exact fun _ heq => hopen (List.cons.inj heq).1
  · exact fun _ heq => hhash (List.cons.inj heq).1

/-- The entry of a scalar is added to the table of the last header. -/
theorem line_scalarLine {key : String} (hkey : isBareKey key = true) {d : Document}
    (h : Scalar.Storable d) {st : State} {root : Entries}
    (hroot : Tree.change false (Tree.insertDotted [] key d) st.header .headed st.root = some root)
    (rest : List Char) :
    line st ((scalarLine key d).toList ++ rest) = some ({ st with root }, rest) := by
  obtain ⟨c, cs, hcs, hc⟩ := exists_of_isBareKey hkey
  have hpath : pathText ([] ++ [key]) = key.toList := pathText_singleton hkey
  have htext : (scalarLine key d).toList ++ rest =
      pathText ([] ++ [key]) ++ ' ' :: '=' :: ' ' :: (scalarText d ++ '\n' :: rest) := by
    rw [scalarLine_eq hkey h, hpath]
    simp
  have hline : line st ((scalarLine key d).toList ++ rest) =
      keyLine st ((scalarLine key d).toList ++ rest) := by
    rw [htext, hpath, hcs, List.cons_append, line_bare hc]
  have hequal : ∀ left, skip (' ' :: '=' :: left) = '=' :: left := fun _ => rfl
  have hblank : ∀ left, skip (' ' :: left) = skip left := fun _ => rfl
  have hdotted : dottedKey (pathText ([] ++ [key]) ++ ' ' :: '=' :: ' ' ::
      (scalarText d ++ '\n' :: rest)) = some ([], key, '=' :: ' ' :: (scalarText d ++ '\n' :: rest)) :=
    dottedKey_pathText (by decide) (by simp [hequal]) (by simpa using hkey) (by decide)
  rw [hline, keyLine, htext, hdotted]
  simp only [Option.bind_eq_bind, Option.bind_some, Scalar.expect, beq_self_eq_true, if_true, hblank,
    skip_scalarText h, value_scalarText h, lineEnd_newline, hroot]
  rfl

/-- A header opens the table at its path. -/
theorem line_headerOf {path : List String} {key : String}
    (hbare : ∀ k ∈ path ++ [key], isBareKey k = true) (hdepth : path.length < maxDepth)
    {st : State} {root : Entries}
    (hroot : Tree.change false (Tree.openTable key) path .headed st.root = some root)
    (rest : List Char) :
    line st ((headerOf (path ++ [key])).toList ++ rest) = some (⟨root, path ++ [key]⟩, rest) := by
  have htext : (headerOf (path ++ [key])).toList ++ rest =
      '[' :: (pathText (path ++ [key]) ++ ']' :: '\n' :: rest) := by
    simp [headerOf, pathText]
  obtain ⟨c, cs, hpath, hc⟩ : ∃ c cs, pathText (path ++ [key]) = c :: cs ∧ isBare c = true := by
    cases path with
    | nil => exact exists_pathText (hbare key (by simp))
    | cons first path => exact exists_pathText (hbare first (by simp))
  have hopen := ne_of_isBare (d := '[') hc (by decide)
  have hline : line st ((headerOf (path ++ [key])).toList ++ rest) =
      headerLine st [']'] Tree.openTable (pathText (path ++ [key]) ++ ']' :: '\n' :: rest) := by
    rw [htext, hpath, List.cons_append, line]
    exact fun _ heq => hopen (List.cons.inj heq).1
  have hclose : ∀ left, skip (']' :: left) = ']' :: left := fun _ => rfl
  have hafter : after? [']'] (']' :: '\n' :: rest) = some ('\n' :: rest) := rfl
  rw [hline, headerLine, dottedKey_pathText (by decide) (by simp [hclose]) hbare hdepth, hclose]
  simp only [Option.bind_eq_bind, Option.bind_some, hafter, lineEnd_newline, hroot]
  rfl

/-! ## Texts -/

/-- The text takes the reader from one state to another, whatever follows it. -/
def Leads (st : State) (text : List Char) (st' : State) : Prop :=
  ∃ n, n ≤ text.length ∧ ∀ fuel rest, lines (fuel + n) st (text ++ rest) = lines fuel st' rest

namespace Leads

theorem refl (st : State) : Leads st [] st := ⟨0, Nat.le_refl 0, fun _ _ => rfl⟩

theorem trans {st st' st'' : State} {text text' : List Char} (h : Leads st text st')
    (h' : Leads st' text' st'') : Leads st (text ++ text') st'' := by
  obtain ⟨n, hn, hlines⟩ := h
  obtain ⟨n', hn', hlines'⟩ := h'
  refine ⟨n' + n, by rw [List.length_append]; omega, fun fuel rest => ?_⟩
  rw [List.append_assoc, ← Nat.add_assoc, hlines, hlines']

/-- The end of the text is where the reader stops. -/
theorem lines_eq {st st' : State} {text : List Char} (h : Leads st text st') :
    lines (text.length + 1) st text = some st' := by
  obtain ⟨n, hn, hlines⟩ := h
  have hrun := hlines (text.length - n + 1) []
  rw [List.append_nil, show text.length - n + 1 + n = text.length + 1 by omega] at hrun
  rw [hrun]
  rfl

/-- A line that does not begin with a blank. -/
theorem of_line {st st' : State} {c : Char} {cs : List Char} (hblank : isBlank c = false)
    (hline : ∀ rest, line st ((c :: cs) ++ rest) = some (st', rest)) : Leads st (c :: cs) st' := by
  refine ⟨1, by simp, fun fuel rest => ?_⟩
  have hskip : skip ((c :: cs) ++ rest) = (c :: cs) ++ rest := by
    rw [skip, List.cons_append, List.dropWhile_cons_of_neg (by simp [hblank])]
  have hline := hline rest
  rw [List.cons_append] at hskip hline ⊢
  rw [lines, hskip]
  simp only [hline, Option.bind_eq_bind, Option.bind_some]

end Leads

theorem leads_blank (st : State) : Leads st ['\n'] st :=
  Leads.of_line rfl fun _ => rfl

theorem leads_scalarLine {key : String} (hkey : isBareKey key = true) {d : Document}
    (h : Scalar.Storable d) {st : State} {root : Entries}
    (hroot : Tree.change false (Tree.insertDotted [] key d) st.header .headed st.root = some root) :
    Leads st (scalarLine key d).toList { st with root } := by
  have hline := line_scalarLine hkey h hroot
  obtain ⟨c, cs, hcs, hc⟩ := exists_of_isBareKey hkey
  rw [scalarLine_eq hkey h, hcs, List.cons_append] at hline ⊢
  exact Leads.of_line (isBlank_of_isBare hc) hline

theorem leads_headerOf {path : List String} {key : String}
    (hbare : ∀ k ∈ path ++ [key], isBareKey k = true) (hdepth : path.length < maxDepth)
    {st : State} {root : Entries}
    (hroot : Tree.change false (Tree.openTable key) path .headed st.root = some root) :
    Leads st (headerOf (path ++ [key])).toList ⟨root, path ++ [key]⟩ := by
  have hline := line_headerOf hbare hdepth hroot
  have htext : (headerOf (path ++ [key])).toList = '[' :: (pathText (path ++ [key]) ++ "]\n".toList) := by
    simp [headerOf, pathText]
  rw [htext] at hline ⊢
  exact Leads.of_line rfl hline

end Historian.Toml
