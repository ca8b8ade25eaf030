import Historian.Toml.Quoting

/-!
# Quoted strings read back

`Quoting.write` picks one of four kinds of quotes; whichever it picks, `Quoting.read` gives the text
back and stops where the quotes end.

* `Quoting.escape?_escaped` — an escape denotes the character it was made for.
* `Quoting.lineTail_body` — between quotes on one line.
* `Quoting.linesTail_body`, `Quoting.linesTail_plain` — between quotes on several lines, where the
  reader takes quotes in runs.
* `Quoting.read_quote` — a quoted text on a line of its own.
-/

set_option autoImplicit false

namespace Historian.Toml.Quoting

/-! ## Escapes -/

theorem codePoint_append {width : Nat} {cs : List Char} {c : Char}
    (h : codePoint width cs = some (c, [])) (rest : List Char) :
    codePoint width (cs ++ rest) = some (c, rest) := by
  unfold codePoint at h
  simp only at h
  split at h
  · rename_i hdigits
    cases hchar : charOf? (Text.hexNumber (cs.take width)) with
    | none => simp [hchar] at h
    | some c' =>
      simp only [hchar, Option.bind_eq_bind, Option.bind_some, Option.pure_def, Option.some.injEq,
        Prod.mk.injEq] at h
      obtain ⟨rfl, hdrop⟩ := h
      have hlength : cs.length = width := by
        have := List.length_take_le width cs
        have := List.drop_eq_nil_iff.1 hdrop
        have := hdigits.1
        rw [List.length_take] at this
        omega
      have htake : (cs ++ rest).take width = cs.take width := by
        rw [← hlength, List.take_left, List.take_length]
      have hrest : (cs ++ rest).drop width = rest := by rw [← hlength, List.drop_left]
      unfold codePoint
      simp [htake, hdigits, hchar, hrest]
  · cases h

/-- What an escape denotes does not depend on what follows it. -/
theorem escape?_append {cs : List Char} {c : Char} (h : escape? cs = some (c, [])) (rest : List Char) :
    escape? (cs ++ rest) = some (c, rest) := by
  unfold escape? at h
  split at h
  case h_8 => exact codePoint_append h rest
  case h_9 => exact codePoint_append h rest
  case h_10 => cases h
  all_goals
    obtain ⟨rfl, rfl⟩ := Prod.mk.inj (Option.some.inj h)
    rfl

/-- Whether a text is an escape for `c` that no reader takes for a hidden line end. -/
def IsEscapeOf (c : Char) (cs : List Char) : Prop :=
  cs.head? = some '\\' ∧ escape? cs.tail = some (c, []) ∧
    (cs.tail.head?.any fun d => !isBlank d && d != '\n' && d != '\r') = true

instance (c : Char) (cs : List Char) : Decidable (IsEscapeOf c cs) :=
  inferInstanceAs (Decidable (_ ∧ _ ∧ _))

set_option maxRecDepth 4000 in
theorem isEscapeOf_escaped_ascii : ∀ n : Fin 128,
    needsEscape (Char.ofNat n) ∨ Char.ofNat n = '\n' ∨ Char.ofNat n = '"' →
      IsEscapeOf (Char.ofNat n) (escaped (Char.ofNat n)) := by
  decide

/-- The characters that are escaped between double quotes all have escapes. -/
theorem isEscapeOf_escaped {c : Char} (h : needsEscape c = true ∨ c = '\n' ∨ c = '"') :
    IsEscapeOf c (escaped c) := by
  have hlt : c.toNat < 128 := by
    rcases h with h | rfl | rfl
    · simp only [needsEscape, isPlain, Bool.or_eq_true, beq_iff_eq, Bool.and_eq_true,
        Bool.not_eq_true', Bool.or_eq_false_iff, Bool.and_eq_false_iff, decide_eq_false_iff_not,
        bne_eq_false_iff_eq] at h
      rcases h with (rfl | rfl) | ⟨⟨-, h | h⟩, -⟩
      · decide
      · decide
      · omega
      · omega
    · decide
    · decide
  have := isEscapeOf_escaped_ascii ⟨c.toNat, hlt⟩
  simp only [Char.ofNat_toNat] at this
  exact this h

/-- An escape as the readers meet it. -/
theorem exists_escape {c : Char} (h : needsEscape c = true ∨ c = '\n' ∨ c = '"') :
    ∃ tail, escaped c = '\\' :: tail ∧ (∀ rest, escape? (tail ++ rest) = some (c, rest)) ∧
      ∀ rest, continued? (tail ++ rest) = none := by
  obtain ⟨hhead, hescape, hnext⟩ := isEscapeOf_escaped h
  cases hcs : escaped c with
  | nil => simp [hcs] at hhead
  | cons b tail =>
    rw [hcs] at hhead hescape hnext
    obtain rfl : b = '\\' := by simpa using hhead
    refine ⟨tail, rfl, escape?_append hescape, fun rest => ?_⟩
    cases tail with
    | nil => simp at hnext
    | cons d ds =>
      simp only [List.tail_cons, List.head?_cons, Option.any_some, Bool.and_eq_true,
        Bool.not_eq_true', bne_iff_ne, ne_eq] at hnext
      obtain ⟨⟨hblank, hnewline⟩, hreturn⟩ := hnext
      have hskip : skip (d :: (ds ++ rest)) = d :: (ds ++ rest) := by
        simp [skip, hblank]
      rw [List.cons_append, continued?, hskip]
      unfold newline?
      split
      · simp_all
      · simp_all
      · rfl

/-! ## One line -/

theorem lineBody_cons (c : Char) (cs : List Char) : lineBody (c :: cs) =
    (if needsEscape c || c == '\n' || c == '"' then escaped c else [c]) ++ lineBody cs := by
  rw [lineBody, List.flatMap_cons]
  rfl

/-- Between double quotes on one line the text is read back. -/
theorem lineTail_body {cs : List Char} :
    ∀ {fuel : Nat} {acc rest : List Char}, (lineBody cs).length < fuel →
      lineTail '"' true fuel (lineBody cs ++ '"' :: rest) acc =
        some (String.ofList (acc.reverse ++ cs), rest) := by
  induction cs with
  | nil =>
    intro fuel acc rest hfuel
    obtain ⟨fuel, rfl⟩ : ∃ n, fuel = n + 1 := ⟨fuel - 1, by simp [lineBody] at hfuel; omega⟩
    simp [lineBody, lineTail]
  | cons c cs ih =>
    intro fuel acc rest hfuel
    obtain ⟨fuel, rfl⟩ : ∃ n, fuel = n + 1 := ⟨fuel - 1, by omega⟩
    rw [lineBody_cons] at hfuel ⊢
    rw [List.length_append] at hfuel
    have hacc : (c :: acc).reverse ++ cs = acc.reverse ++ c :: cs := by simp
    by_cases hescape : needsEscape c = true ∨ c = '\n' ∨ c = '"'
    · obtain ⟨tail, htail, hread, -⟩ := exists_escape hescape
      have hif : (needsEscape c || c == '\n' || c == '"') = true := by simpa [or_assoc] using hescape
      rw [if_pos hif, htail] at hfuel ⊢
      rw [List.length_cons] at hfuel
      rw [List.append_assoc, List.cons_append, lineTail]
      simp only [Char.reduceBEq, Bool.false_eq_true, if_false, Bool.and_true, if_true, hread]
      rw [ih (by omega), hacc]
    · have hif : ¬ (needsEscape c || c == '\n' || c == '"') = true := by
        simpa [or_assoc] using hescape
      simp only [not_or, Bool.not_eq_true] at hescape
      obtain ⟨hneeds, hnewline, hquote⟩ := hescape
      simp only [needsEscape, Bool.or_eq_false_iff, beq_eq_false_iff_ne, ne_eq] at hneeds
      obtain ⟨⟨hbackslash, -⟩, hplain⟩ := hneeds
      have hplain : isPlain c = true := by simpa [hnewline] using hplain
      rw [if_neg hif] at hfuel ⊢
      rw [List.length_singleton] at hfuel
      rw [List.singleton_append, List.cons_append, lineTail]
      simp only [beq_iff_eq, hquote, if_false, hbackslash, Bool.true_and, hplain, if_true]
      rw [ih (by omega), hacc]

/-- Between quotes on one line, a text that needs no escape is read back. -/
theorem lineTail_plain {quote : Char} {cs : List Char} :
    ∀ {fuel : Nat} {acc rest : List Char}, (∀ c ∈ cs, c ≠ quote ∧ isPlain c = true) →
      cs.length < fuel →
      lineTail quote false fuel (cs ++ quote :: rest) acc =
        some (String.ofList (acc.reverse ++ cs), rest) := by
  induction cs with
  | nil =>
    intro fuel acc rest _ hfuel
    obtain ⟨fuel, rfl⟩ : ∃ n, fuel = n + 1 := ⟨fuel - 1, by simp at hfuel; omega⟩
    simp [lineTail]
  | cons c cs ih =>
    intro fuel acc rest hplain hfuel
    rw [List.length_cons] at hfuel
    obtain ⟨fuel, rfl⟩ : ∃ n, fuel = n + 1 := ⟨fuel - 1, by omega⟩
    obtain ⟨hquote, hc⟩ := hplain c List.mem_cons_self
    rw [List.cons_append, lineTail]
    simp only [beq_iff_eq, hquote, if_false, Bool.false_and, Bool.false_eq_true, hc, if_true]
    rw [ih (fun d hd => hplain d (List.mem_cons_of_mem _ hd)) (by omega)]
    simp

/-! ## Several lines -/

theorem takeWhile_run {quote : Char} (k : Nat) {cs : List Char} (h : cs.head? ≠ some quote) :
    (List.replicate k quote ++ cs).takeWhile (· == quote) = List.replicate k quote := by
  induction k with
  | zero =>
    cases cs with
    | nil => rfl
    | cons c rest =>
      have : ¬ c = quote := fun he => h (by rw [he]; rfl)
      simp [this]
  | succ k ih => simp [List.replicate_succ, ih]

theorem replicate_append_cons (k : Nat) (quote : Char) (cs : List Char) :
    List.replicate k quote ++ quote :: cs = List.replicate (k + 1) quote ++ cs := by
  rw [List.replicate_succ', List.append_assoc]
  rfl

/-- A run of at most two quotes belongs to the text. -/
theorem linesTail_run {quote : Char} {escapes : Bool} {k : Nat} (hk : k < 3) {cs : List Char}
    (h : cs.head? ≠ some quote) {fuel : Nat} (hfuel : k + cs.length < fuel) (acc : List Char) :
    ∃ left, cs.length < left ∧
      linesTail quote escapes fuel (List.replicate k quote ++ cs) acc =
        linesTail quote escapes left cs (List.replicate k quote ++ acc) := by
  cases k with
  | zero => exact ⟨fuel, by omega, rfl⟩
  | succ k =>
    obtain ⟨fuel, rfl⟩ : ∃ n, fuel = n + 1 := ⟨fuel - 1, by omega⟩
    refine ⟨fuel, by omega, ?_⟩
    have hrun := takeWhile_run (k + 1) h
    rw [List.replicate_succ, List.cons_append] at hrun
    have hdrop : (quote :: (List.replicate k quote ++ cs)).drop (k + 1) = cs := by
      rw [List.drop_succ_cons, List.drop_left' (List.length_replicate)]
    have hlength : (quote :: List.replicate k quote).length = k + 1 := by simp
    rw [List.replicate_succ, List.cons_append, linesTail]
    simp only [beq_self_eq_true, if_true, hrun, hlength, hk, hdrop]
    rw [List.replicate_succ]

/-- Of a longer run the last three quotes close the string. -/
theorem linesTail_close {quote : Char} {escapes : Bool} {k : Nat} (hk : k < 3) {cs : List Char}
    (h : cs.head? ≠ some quote) {fuel : Nat} (hfuel : 0 < fuel) (acc : List Char) :
    linesTail quote escapes fuel (List.replicate k quote ++ quote :: quote :: quote :: cs) acc =
      some (String.ofList (acc.reverse ++ List.replicate k quote), cs) := by
  obtain ⟨fuel, rfl⟩ : ∃ n, fuel = n + 1 := ⟨fuel - 1, by omega⟩
  have hrun := takeWhile_run (k + 3) h
  rw [List.replicate_succ, List.cons_append] at hrun
  have hlength : (quote :: List.replicate (k + 2) quote).length = k + 3 := by simp
  have hlong : ¬ k + 3 < 3 := by omega
  have hinside : min (k + 3 - 3) 2 = k := by omega
  have hdrop : (quote :: (List.replicate (k + 2) quote ++ cs)).drop (k + 3) = cs := by
    rw [List.drop_succ_cons, List.drop_left' (List.length_replicate)]
  rw [replicate_append_cons, replicate_append_cons, replicate_append_cons, List.replicate_succ,
    List.cons_append, linesTail]
  simp only [beq_self_eq_true, if_true, hrun, hlength, hlong, if_false, hinside, hdrop]
  simp

/-- A character that is no quote is read as it stands, and so is a line end. -/
theorem linesTail_char {quote : Char} {escapes : Bool} {c : Char} (hquote : c ≠ quote)
    (hescape : (escapes && c == '\\') = false) (hc : isPlain c = true ∨ c = '\n') {fuel : Nat}
    (cs acc : List Char) :
    linesTail quote escapes (fuel + 1) (c :: cs) acc = linesTail quote escapes fuel cs (c :: acc) := by
  rw [linesTail]
  simp only [beq_iff_eq, hquote, if_false, hescape, Bool.false_eq_true]
  by_cases hnewline : c = '\n'
  · subst hnewline
    rfl
  · have hplain := hc.resolve_right hnewline
    have hreturn : c ≠ '\r' := by
      rintro rfl
      simp [isPlain] at hplain
    have hno : newline? (c :: cs) = none := by
      unfold newline?
      split <;> simp_all
    simp only [hno, hplain, if_true]

/-- After a run of quotes such a character is read, and the run belongs to the text. -/
theorem linesTail_run_char {quote : Char} {escapes : Bool} {k : Nat} (hk : k < 3) {c : Char}
    (hquote : c ≠ quote) (hescape : (escapes && c == '\\') = false)
    (hc : isPlain c = true ∨ c = '\n') {fuel : Nat} {cs : List Char}
    (hfuel : k + (c :: cs).length < fuel) (acc : List Char) :
    ∃ left, cs.length < left ∧
      linesTail quote escapes fuel (List.replicate k quote ++ c :: cs) acc =
        linesTail quote escapes left cs (c :: (List.replicate k quote ++ acc)) := by
  obtain ⟨left, hleft, hrun⟩ := linesTail_run hk (by simpa using hquote) hfuel acc
  obtain ⟨left, rfl⟩ : ∃ n, left = n + 1 := ⟨left - 1, by omega⟩
  rw [List.length_cons] at hleft
  exact ⟨left, by omega, by rw [hrun, linesTail_char hquote hescape hc]⟩

/-- So is an escape. -/
theorem linesTail_run_escaped {k : Nat} (hk : k < 3) {c : Char}
    (h : needsEscape c = true ∨ c = '\n' ∨ c = '"') {fuel : Nat} {cs : List Char}
    (hfuel : k + (escaped c ++ cs).length < fuel) (acc : List Char) :
    ∃ left, cs.length < left ∧
      linesTail '"' true fuel (List.replicate k '"' ++ (escaped c ++ cs)) acc =
        linesTail '"' true left cs (c :: (List.replicate k '"' ++ acc)) := by
  obtain ⟨tail, htail, hread, hcontinued⟩ := exists_escape h
  rw [htail, List.cons_append] at hfuel ⊢
  have hhead : ('\\' :: (tail ++ cs)).head? ≠ some '"' := by simp
  obtain ⟨left, hleft, hrun⟩ := linesTail_run hk hhead hfuel acc
  obtain ⟨left, rfl⟩ : ∃ n, left = n + 1 := ⟨left - 1, by omega⟩
  rw [List.length_cons, List.length_append] at hleft
  refine ⟨left, by omega, ?_⟩
  rw [hrun, linesTail]
  simp only [Char.reduceBEq, Bool.false_eq_true, if_false, Bool.and_true, if_true, hcontinued,
    hread]

theorem linesBody_cons (run : Nat) (c : Char) (cs : List Char) : linesBody run (c :: cs) =
    if c = '"' then
      if run = 2 then escaped c ++ linesBody 0 cs else c :: linesBody (run + 1) cs
    else if needsEscape c = true then escaped c ++ linesBody 0 cs
    else c :: linesBody 0 cs := by
  rw [linesBody]
  simp

/-- Between double quotes on several lines the text is read back.  Of it `k` quotes in a row have
been met and not been taken yet. -/
theorem linesTail_body {cs : List Char} :
    ∀ {k fuel : Nat} (acc : List Char) {rest : List Char}, k < 3 → rest.head? ≠ some '"' →
      k + (linesBody k cs ++ '"' :: '"' :: '"' :: rest).length < fuel →
      linesTail '"' true fuel
          (List.replicate k '"' ++ (linesBody k cs ++ '"' :: '"' :: '"' :: rest)) acc =
        some (String.ofList (acc.reverse ++ List.replicate k '"' ++ cs), rest) := by
  induction cs with
  | nil =>
    intro k fuel acc rest hk hrest hfuel
    rw [linesBody, List.nil_append, linesTail_close hk hrest (by omega), List.append_nil]
  | cons c cs ih =>
    intro k fuel acc rest hk hrest hfuel
    -- an escape ends the run of quotes before it
    have hescaped : (needsEscape c = true ∨ c = '\n' ∨ c = '"') →
        k + (escaped c ++ linesBody 0 cs ++ '"' :: '"' :: '"' :: rest).length < fuel →
        linesTail '"' true fuel (List.replicate k '"' ++
            (escaped c ++ linesBody 0 cs ++ '"' :: '"' :: '"' :: rest)) acc =
          some (String.ofList (acc.reverse ++ List.replicate k '"' ++ c :: cs), rest) := by
      intro hescape hfuel
      rw [List.append_assoc] at hfuel ⊢
      obtain ⟨left, hleft, hrun⟩ := linesTail_run_escaped hk hescape hfuel acc
      rw [← Nat.zero_add (List.length _)] at hleft
      rw [hrun]
      simpa using ih (c :: (List.replicate k '"' ++ acc)) (by omega) hrest hleft
    rw [linesBody_cons] at hfuel ⊢
    by_cases hquote : c = '"'
    · rw [if_pos hquote] at hfuel ⊢
      by_cases htwo : k = 2
      · rw [if_pos htwo] at hfuel ⊢
        exact hescaped (.inr (.inr hquote)) hfuel
      · rw [if_neg htwo, List.cons_append] at hfuel ⊢
        subst hquote
        rw [List.length_cons] at hfuel
        rw [replicate_append_cons, ih acc (by omega) hrest (by omega)]
        simp [List.replicate_succ']
    · rw [if_neg hquote] at hfuel ⊢
      by_cases hneeds : needsEscape c = true
      · rw [if_pos hneeds] at hfuel ⊢
        exact hescaped (.inl hneeds) hfuel
      · rw [if_neg hneeds, List.cons_append] at hfuel ⊢
        simp only [needsEscape, Bool.not_eq_true, Bool.or_eq_false_iff, beq_eq_false_iff_ne, ne_eq]
          at hneeds
        obtain ⟨⟨hbackslash, -⟩, hplain⟩ := hneeds
        have hc : isPlain c = true ∨ c = '\n' := by
          by_cases hnewline : c = '\n'
          · exact .inr hnewline
          · exact .inl (by simpa [hnewline] using hplain)
        have hescape : (true && c == '\\') = false := by simpa using hbackslash
        obtain ⟨left, hleft, hrun⟩ := linesTail_run_char hk hquote hescape hc hfuel acc
        rw [← Nat.zero_add (List.length _)] at hleft
        rw [hrun]
        simpa using ih (c :: (List.replicate k '"' ++ acc)) (by omega) hrest hleft

/-- Every run of `quote` in a text after `k` of them is shorter than `n`. -/
def RunsBelow (quote : Char) (n : Nat) : Nat → List Char → Prop
  | _, [] => True
  | k, c :: rest =>
    if c = quote then k + 1 < n ∧ RunsBelow quote n (k + 1) rest else RunsBelow quote n 0 rest

theorem runsBelow_of_longestRun {quote : Char} {n : Nat} {cs : List Char}
    (h : longestRun quote cs < n) : RunsBelow quote n 0 cs := by
  -- the longest run so far never gets shorter
  have hfold : ∀ {cs : List Char} {best run : Nat},
      (cs.foldl (fun r d => if d == quote then (max r.1 (r.2 + 1), r.2 + 1) else (r.1, 0))
        (best, run)).1 < n → best < n ∧ RunsBelow quote n run cs := by
    intro cs
    induction cs with
    | nil => exact fun h => ⟨h, trivial⟩
    | cons c rest ih =>
      intro best run h
      rw [List.foldl_cons] at h
      rw [RunsBelow]
      by_cases hc : (c == quote) = true
      · simp only [if_pos hc] at h
        rw [if_pos (beq_iff_eq.1 hc)]
        obtain ⟨hbest, hruns⟩ := ih h
        exact ⟨by omega, by omega, hruns⟩
      · simp only [if_neg hc] at h
        rw [if_neg fun he => hc (beq_iff_eq.2 he)]
        exact ih h
  exact (hfold h).2

theorem ne_of_runsBelow_one {quote : Char} {cs : List Char} {k : Nat}
    (h : RunsBelow quote 1 k cs) : ∀ c ∈ cs, c ≠ quote := by
  induction cs generalizing k with
  | nil => simp
  | cons d rest ih =>
    rw [RunsBelow] at h
    split at h
    · omega
    · rename_i hd
      intro c hc
      rcases List.mem_cons.1 hc with rfl | hc
      · exact hd
      · exact ih h c hc

/-- Between single quotes on several lines, a text without longer runs of them is read back. -/
theorem linesTail_plain {quote : Char} {cs : List Char}
    (hcs : ∀ c ∈ cs, isPlain c = true ∨ c = '\n') :
    ∀ {k fuel : Nat} (acc : List Char) {rest : List Char}, k < 3 → RunsBelow quote 3 k cs →
      rest.head? ≠ some quote → k + (cs ++ quote :: quote :: quote :: rest).length < fuel →
      linesTail quote false fuel
          (List.replicate k quote ++ (cs ++ quote :: quote :: quote :: rest)) acc =
        some (String.ofList (acc.reverse ++ List.replicate k quote ++ cs), rest) := by
  induction cs with
  | nil =>
    intro k fuel acc rest hk _ hrest hfuel
    rw [List.nil_append, linesTail_close hk hrest (by omega), List.append_nil]
  | cons c cs ih =>
    intro k fuel acc rest hk hruns hrest hfuel
    have ih := @ih fun d hd => hcs d (List.mem_cons_of_mem _ hd)
    rw [RunsBelow] at hruns
    rw [List.cons_append] at hfuel ⊢
    by_cases hquote : c = quote
    · rw [if_pos hquote] at hruns
      subst hquote
      rw [List.length_cons] at hfuel
      rw [replicate_append_cons, ih acc hruns.1 hruns.2 hrest (by omega)]
      simp [List.replicate_succ']
    · rw [if_neg hquote] at hruns
      have hescape : (false && c == '\\') = false := rfl
      obtain ⟨left, hleft, hrun⟩ := linesTail_run_char hk hquote hescape
        (hcs c List.mem_cons_self) hfuel acc
      rw [← Nat.zero_add (List.length _)] at hleft
      rw [hrun]
      simpa using ih (c :: (List.replicate k quote ++ acc)) (by omega) hruns hrest hleft

/-! ## Every kind of quotes -/

theorem plain_of_hasControl {cs : List Char} (h : hasControl cs = false) :
    ∀ c ∈ cs, isPlain c = true ∨ c = '\n' := by
  intro c hc
  have := List.any_eq_false.1 h c hc
  simp only [Bool.and_eq_true, Bool.not_eq_true', bne_iff_ne, ne_eq, not_and, Classical.not_not]
    at this
  cases hplain : isPlain c with
  | true => exact .inl rfl
  | false => exact .inr (this hplain)

/-- A string whose quotes are not tripled is one of one line. -/
theorem read_of_pair {quote : Char} (hquote : quote = '"' ∨ quote = '\'') {cs : List Char}
    (h : ∀ rest, cs ≠ quote :: quote :: rest) : read (quote :: cs) = readLine (quote :: cs) := by
  unfold read
  split
  · rename_i rest heq
    obtain ⟨rfl, rfl⟩ := List.cons.inj heq
    exact absurd rfl (h rest)
  · rename_i rest heq
    obtain ⟨rfl, rfl⟩ := List.cons.inj heq
    exact absurd rfl (h rest)
  · rfl

/-- A line end right after the opening quotes is passed over. -/
theorem readLines_opening (quote : Char) (escapes : Bool) (cs : List Char) :
    readLines quote escapes ('\n' :: cs) = linesTail quote escapes (cs.length + 1) cs [] := rfl

/-- What does not begin with a line end is read from the opening quotes on. -/
theorem readLines_plain {quote : Char} {escapes : Bool} {cs : List Char}
    (h : newline? cs = none) :
    readLines quote escapes cs = linesTail quote escapes (cs.length + 1) cs [] := by
  simp [readLines, h]

/-- The line end after the opening quotes of a text that has line ends. -/
def opening (cs : List Char) : List Char := if cs.contains '\n' then ['\n'] else []

/-- Between opening and closing quotes the reader sees the body alone. -/
theorem readLines_opened {quote : Char} {escapes : Bool} {cs body : List Char}
    (h : cs.contains '\n' = false → newline? body = none) :
    readLines quote escapes (opening cs ++ body) =
      linesTail quote escapes (body.length + 1) body [] := by
  rw [opening]
  split
  · exact readLines_opening quote escapes body
  · rename_i hlines
    exact readLines_plain (h (by simpa using hlines))

theorem newline?_eq_none {c : Char} {cs : List Char} (hnewline : c ≠ '\n') (hreturn : c ≠ '\r') :
    newline? (c :: cs) = none := by
  unfold newline?
  split <;> simp_all

theorem ne_return_of_isPlain {c : Char} (h : isPlain c = true) : c ≠ '\r' := by
  rintro rfl
  simp [isPlain] at h

theorem read_line (cs : List Char) {rest : List Char} (hrest : rest.head? ≠ some '"') :
    read ('"' :: (lineBody cs ++ '"' :: rest)) = some (String.ofList cs, rest) := by
  have hpair : ∀ more, lineBody cs ++ '"' :: rest ≠ '"' :: '"' :: more := by
    intro more heq
    cases cs with
    | nil =>
      obtain rfl : rest = '"' :: more := by simpa [lineBody] using heq
      simp at hrest
    | cons c cs =>
      rw [lineBody_cons] at heq
      split at heq
      · rename_i hescape
        obtain ⟨tail, htail, -⟩ := exists_escape (by simpa [or_assoc] using hescape)
        simp [htail] at heq
      · simp_all
  rw [read_of_pair (.inl rfl) hpair, readLine,
    lineTail_body (by simp only [List.length_append, List.length_cons]; omega)]
  simp

theorem read_plain {cs : List Char} (hcs : ∀ c ∈ cs, c ≠ '\'' ∧ isPlain c = true) {rest : List Char}
    (hrest : rest.head? ≠ some '\'') :
    read ('\'' :: (cs ++ '\'' :: rest)) = some (String.ofList cs, rest) := by
  have hpair : ∀ more, cs ++ '\'' :: rest ≠ '\'' :: '\'' :: more := by
    intro more heq
    cases cs with
    | nil =>
      obtain rfl : rest = '\'' :: more := by simpa using heq
      simp at hrest
    | cons c cs => exact (hcs c List.mem_cons_self).1 (List.cons.inj heq).1
  rw [read_of_pair (.inr rfl) hpair, readLine,
    lineTail_plain hcs (by simp only [List.length_append, List.length_cons]; omega)]
  simp

theorem read_several (cs : List Char) {rest : List Char} (hrest : rest.head? ≠ some '"') :
    read ('"' :: '"' :: '"' :: (opening cs ++ (linesBody 0 cs ++ '"' :: '"' :: '"' :: rest))) =
      some (String.ofList cs, rest) := by
  have hnewline : cs.contains '\n' = false →
      newline? (linesBody 0 cs ++ '"' :: '"' :: '"' :: rest) = none := by
    intro hlines
    cases cs with
    | nil => rfl
    | cons c cs =>
      have hc : c ≠ '\n' := by
        rintro rfl
        simp at hlines
      rw [linesBody_cons]
      split
      · exact newline?_eq_none (by simp_all) (by simp_all)
      · split
        · rename_i hneeds
          obtain ⟨tail, htail, -⟩ := exists_escape (.inl hneeds)
          rw [htail]
          rfl
        · rename_i hneeds
          simp only [needsEscape, Bool.not_eq_true, Bool.or_eq_false_iff, Bool.and_eq_false_iff,
            Bool.not_eq_false', bne_eq_false_iff_eq] at hneeds
          exact newline?_eq_none hc (ne_return_of_isPlain (hneeds.2.resolve_right hc))
  rw [read, readLines_opened hnewline]
  exact linesTail_body (k := 0) [] (by omega) hrest (by omega)

theorem read_several_plain {cs : List Char} (hcs : ∀ c ∈ cs, isPlain c = true ∨ c = '\n')
    (hruns : RunsBelow '\'' 3 0 cs) {rest : List Char} (hrest : rest.head? ≠ some '\'') :
    read ('\'' :: '\'' :: '\'' :: (opening cs ++ (cs ++ '\'' :: '\'' :: '\'' :: rest))) =
      some (String.ofList cs, rest) := by
  have hnewline : cs.contains '\n' = false →
      newline? (cs ++ '\'' :: '\'' :: '\'' :: rest) = none := by
    intro hlines
    cases cs with
    | nil => rfl
    | cons c cs =>
      have hc : c ≠ '\n' := by
        rintro rfl
        simp at hlines
      exact newline?_eq_none hc
        (ne_return_of_isPlain ((hcs c List.mem_cons_self).resolve_right hc))
  rw [read, readLines_opened hnewline]
  exact linesTail_plain (k := 0) hcs [] (by omega) hruns hrest (by omega)

/-- A quoted text begins with a quote. -/
theorem exists_quote (cs : List Char) :
    ∃ rest, quote cs = '"' :: rest ∨ quote cs = '\'' :: rest := by
  unfold quote
  simp only
  repeat' split
  all_goals first
    | exact ⟨_, .inl rfl⟩
    | exact ⟨_, .inr rfl⟩

/-- A quoted text is read back, whatever stands after it but a quote. -/
theorem read_quote (cs : List Char) {rest : List Char} (hdouble : rest.head? ≠ some '"')
    (hsingle : rest.head? ≠ some '\'') :
    read (quote cs ++ rest) = some (String.ofList cs, rest) := by
  unfold quote
  simp only
  split
  · simpa using read_line cs hdouble
  · split
    · rename_i h
      simp only [Bool.and_eq_true, Bool.not_eq_true', decide_eq_true_eq] at h
      obtain ⟨⟨hcontrol, hsingles⟩, hlines⟩ := h
      have hnone := ne_of_runsBelow_one (runsBelow_of_longestRun (by omega : longestRun '\'' cs < 1))
      have hcs : ∀ c ∈ cs, c ≠ '\'' ∧ isPlain c = true := by
        intro c hc
        refine ⟨hnone c hc, (plain_of_hasControl hcontrol c hc).resolve_right fun he => ?_⟩
        rw [he] at hc
        simp [hc] at hlines
      simpa using read_plain hcs hsingle
    · split
      · simpa [opening] using read_several cs hdouble
      · split
        · rename_i h
          simp only [Bool.and_eq_true, Bool.not_eq_true', decide_eq_true_eq] at h
          have hruns := runsBelow_of_longestRun (by omega : longestRun '\'' cs < 3)
          simpa [opening] using read_several_plain (plain_of_hasControl h.1) hruns hsingle
        · split
          · rename_i hlines
            have hmem : '\n' ∈ cs := by simpa using hlines
            simpa [opening, hmem] using read_several cs hdouble
          · simpa using read_line cs hdouble

end Historian.Toml.Quoting
