import Historian.Proofs.Toml.Quoting
import Historian.Toml.Reader
import Historian.Toml.Writer

/-!
# Written scalars read back

The values that `Toml.scalarLine` writes are read back by `Toml.value`, up to the end of their line.

* `Scalar.digitRun_digits` — the reader takes all digits of a number and no more.
* `Scalar.calendarTime_digits` — a whole number is not mistaken for a date or a time of day.
* `value_scalarText` — whole numbers that can be stored, truth values, and strings.
-/

set_option autoImplicit false

namespace Historian.Toml

namespace Scalar

/-! ## Digits -/

/-- The digits of a number come one after the other up to the end of the line. -/
theorem digitRun_digits {ds : List Char} (hds : ∀ c ∈ ds, c.isDigit = true) (rest : List Char) :
    digitRun Char.isDigit (ds ++ '\n' :: rest) = (ds, '\n' :: rest) := by
  induction ds with
  | nil => cases rest <;> rfl
  | cons c ds ih =>
    have hc := hds c List.mem_cons_self
    have ih := ih fun d hd => hds d (List.mem_cons_of_mem _ hd)
    cases ds with
    | nil =>
      rw [List.nil_append] at ih
      simp [digitRun, hc, ih]
    | cons d ds =>
      have hd : d ≠ '_' := by
        rintro rfl
        exact absurd (hds '_' (by simp)) (by decide)
      rw [List.cons_append] at ih
      rw [List.cons_append, List.cons_append, digitRun]
      · simp only [hc, if_true, ih]
      · exact hd

theorem hexValue?_digit {c : Char} (h : c.isDigit = true) :
    Text.hexValue? c = some (c.toNat - '0'.toNat) := by
  simp [Text.hexValue?, h]

/-- The digits of a number spell it. -/
theorem valueOf_toDigits (n : Nat) : valueOf 10 (Nat.toDigits 10 n) = n := by
  have hfold : ∀ {ds : List Char} {m : Nat}, (∀ c ∈ ds, c.isDigit = true) →
      ds.foldl (fun n c => n * 10 + (Text.hexValue? c).getD 0) m = Nat.ofDigitChars 10 ds m := by
    intro ds
    induction ds with
    | nil => exact fun _ => rfl
    | cons c ds ih =>
      intro m hds
      rw [List.foldl_cons, Nat.ofDigitChars_cons, hexValue?_digit (hds c List.mem_cons_self),
        ih fun d hd => hds d (List.mem_cons_of_mem _ hd), Nat.mul_comm, Option.getD_some]
  rw [valueOf, hfold fun c hc => Nat.isDigit_of_mem_toDigits (by omega) (by omega) hc,
    Nat.ofDigitChars_ten_toDigits]

/-- A number has no leading zeros. -/
theorem head_toDigits {n : Nat} (h : 0 < n) : (Nat.toDigits 10 n).head? ≠ some '0' := by
  induction n using Nat.strongRecOn with
  | ind n ih =>
    by_cases hn : n < 10
    · rw [Nat.toDigits_of_lt_base hn]
      have hfin : ∀ m : Fin 10, 0 < m.val → [m.val.digitChar].head? ≠ some '0' := by decide
      exact hfin ⟨n, hn⟩ h
    · rw [Nat.toDigits_of_base_le (by omega) (by omega)]
      have := ih (n / 10) (by omega) (by omega)
      cases hds : Nat.toDigits 10 (n / 10) with
      | nil => exact absurd hds Nat.toDigits_ne_nil
      | cons d ds =>
        rw [hds] at this
        simpa using this

/-! ## Numbers are no times -/

/-- After a number of fixed width comes a digit or the end of the line. -/
theorem fixed_digits {ds : List Char} (hds : ∀ c ∈ ds, c.isDigit = true) {rest : List Char}
    {width low high n : Nat} {left : List Char}
    (h : fixed width low high (ds ++ '\n' :: rest) = some (n, left)) :
    ∃ c more, left = c :: more ∧ (c.isDigit = true ∨ c = '\n') := by
  unfold fixed at h
  simp only at h
  split at h
  · rename_i hdigits
    obtain ⟨-, hleft⟩ := Prod.mk.inj (Option.some.inj h)
    have hwidth : width ≤ ds.length := by
      by_cases hle : width ≤ ds.length
      · exact hle
      · -- otherwise the line end would be among the digits
        have hmem : '\n' ∈ (ds ++ '\n' :: rest).take width := by
          rw [List.take_append, List.mem_append]
          refine .inr ?_
          obtain ⟨k, hk⟩ : ∃ k, width - ds.length = k + 1 := ⟨width - ds.length - 1, by omega⟩
          rw [hk, List.take_succ_cons]
          exact List.mem_cons_self
        have := List.all_eq_true.1 hdigits.2.1 _ hmem
        exact absurd this (by decide)
    rw [← hleft, List.drop_append_of_le_length hwidth]
    cases hdrop : ds.drop width with
    | nil => exact ⟨'\n', rest, rfl, .inr rfl⟩
    | cons c more =>
      have hc : c ∈ ds := List.mem_of_mem_drop (hdrop ▸ List.mem_cons_self)
      exact ⟨c, more ++ '\n' :: rest, rfl, .inl (hds c hc)⟩
  · cases h

/-- So neither a date nor a time of day goes on. -/
theorem expect_after_fixed {ds : List Char} (hds : ∀ c ∈ ds, c.isDigit = true) {rest : List Char}
    {width low high n : Nat} {left : List Char}
    (h : fixed width low high (ds ++ '\n' :: rest) = some (n, left)) {mark : Char}
    (hmark : mark = '-' ∨ mark = ':') : expect mark left = none := by
  obtain ⟨c, more, rfl, hc⟩ := fixed_digits hds h
  have hne : c ≠ mark := by
    rintro rfl
    rcases hmark with rfl | rfl <;> rcases hc with hc | hc <;> exact absurd hc (by decide)
  simp [expect, hne]

theorem calendarTime_digits {ds : List Char} (hds : ∀ c ∈ ds, c.isDigit = true)
    (rest : List Char) : calendarTime (ds ++ '\n' :: rest) = none := by
  have hdate : date (ds ++ '\n' :: rest) = none := by
    cases hyear : fixed 4 0 9999 (ds ++ '\n' :: rest) with
    | none => simp [date, hyear]
    | some found =>
      obtain ⟨year, left⟩ := found
      simp [date, hyear, expect_after_fixed hds hyear (.inl rfl)]
  have htime : timeOfDay (ds ++ '\n' :: rest) = none := by
    cases hhour : fixed 2 0 23 (ds ++ '\n' :: rest) with
    | none => simp [timeOfDay, hhour]
    | some found =>
      obtain ⟨hour, left⟩ := found
      simp [timeOfDay, hhour, expect_after_fixed hds hhour (.inr rfl)]
  simp [calendarTime, hdate, htime]

/-! ## Whole numbers -/

theorem isDigit_toDigits {n : Nat} : ∀ c ∈ Nat.toDigits 10 n, c.isDigit = true :=
  fun _ hc => Nat.isDigit_of_mem_toDigits (by omega) (by omega) hc

/-- A number begins with a digit, and is zero alone or has no zero for its first digit. -/
theorem exists_toDigits (n : Nat) : ∃ c ds, Nat.toDigits 10 n = c :: ds ∧ c.isDigit = true ∧
    (c = '0' → ds = []) := by
  cases hds : Nat.toDigits 10 n with
  | nil => exact absurd hds Nat.toDigits_ne_nil
  | cons c ds =>
    refine ⟨c, ds, rfl, isDigit_toDigits c (hds ▸ List.mem_cons_self), ?_⟩
    rintro rfl
    rcases Nat.eq_zero_or_pos n with rfl | hn
    · exact (List.cons.inj hds).2.symm
    · have := head_toDigits hn
      rw [hds] at this
      exact absurd rfl this

theorem whole_toDigits (n : Nat) (rest : List Char) :
    whole (Nat.toDigits 10 n ++ '\n' :: rest) = some (Nat.toDigits 10 n, '\n' :: rest) := by
  obtain ⟨c, ds, hds, hc, hzero⟩ := exists_toDigits n
  by_cases h : c = '0'
  · rw [hds, hzero h, h]
    rfl
  · have hrun := digitRun_digits (isDigit_toDigits (n := n)) rest
    rw [hds] at hrun ⊢
    rw [List.cons_append] at hrun ⊢
    rw [whole, digits1, hrun]
    · exact fun _ heq => h (List.cons.inj heq).1

theorem decimal_toDigits (negative : Bool) {n : Nat} {m : Int}
    (hm : m = if negative then -(n : Int) else n) (hfits : fitsSigned 64 m) (rest : List Char) :
    decimal negative (Nat.toDigits 10 n ++ '\n' :: rest) = some (integer m, '\n' :: rest) := by
  have hexponent : exponent ('\n' :: rest) = some (none, '\n' :: rest) := rfl
  have hfraction : fraction ('\n' :: rest) = some ([], '\n' :: rest) := rfl
  simp only [decimal, whole_toDigits, hexponent, hfraction, valueOf_toDigits, Option.bind_eq_bind,
    Option.bind_some, List.isEmpty_nil, Option.isNone_none, Bool.and_self, if_true, ← hm, hfits]
  rfl

/-- A digit is neither a sign nor the beginning of a word. -/
theorem ne_of_isDigit {c d : Char} (hc : c.isDigit = true) (hd : d.isDigit = false) : c ≠ d := by
  rintro rfl
  rw [hc] at hd
  cases hd

/-- After its sign, a number that begins with a digit and has no mark is a decimal one. -/
theorem number_of_sign {negative : Bool} {c : Char} {cs rest : List Char}
    (hsign : sign cs = (negative, c :: rest)) (hc : c.isDigit = true)
    (hmark : ∀ d left, cs = '0' :: d :: left → d = '\n') :
    number cs = decimal negative (c :: rest) := by
  have hunmarked : ∀ {d : Char} {left : List Char}, d ≠ '\n' → cs = '0' :: d :: left → False :=
    fun hd heq => hd (hmark _ _ heq)
  rw [number, hsign]
  · simp only
    split
    · exact absurd (by assumption) fun h => ne_of_isDigit hc (by decide) (List.cons.inj h).1
    · exact absurd (by assumption) fun h => ne_of_isDigit hc (by decide) (List.cons.inj h).1
    · rfl
  all_goals exact fun _ => hunmarked (by decide)

theorem number_digit {c : Char} {cs : List Char} (hc : c.isDigit = true)
    (hzero : c = '0' → cs.head? = some '\n') : number (c :: cs) = decimal false (c :: cs) := by
  have hsign : sign (c :: cs) = (false, c :: cs) := by
    rw [sign]
    all_goals exact fun _ heq => ne_of_isDigit hc (by decide) (List.cons.inj heq).1
  refine number_of_sign hsign hc fun d left heq => ?_
  obtain ⟨hc, rfl⟩ := List.cons.inj heq
  exact Option.some.inj (hzero hc)

theorem toList_ofNat (n : Nat) : (toString (Int.ofNat n)).toList = Nat.toDigits 10 n :=
  Nat.toList_repr

theorem toList_negSucc (n : Nat) :
    (toString (Int.negSucc n)).toList = '-' :: Nat.toDigits 10 (n + 1) := by
  have htext : toString (Int.negSucc n) = "-" ++ (n + 1).repr := rfl
  rw [htext, String.toList_append, Nat.toList_repr]
  rfl

/-- A whole number begins with a minus or a digit. -/
theorem exists_repr (n : Int) :
    ∃ c cs, (toString n).toList = c :: cs ∧ (c = '-' ∨ c.isDigit = true) := by
  cases n with
  | ofNat n =>
    obtain ⟨c, ds, hds, hc, -⟩ := exists_toDigits n
    exact ⟨c, ds, (toList_ofNat n).trans hds, .inr hc⟩
  | negSucc n => exact ⟨'-', _, toList_negSucc n, .inl rfl⟩

/-- A whole number is read with its sign. -/
theorem number_repr {n : Int} (hfits : fitsSigned 64 n = true) (rest : List Char) :
    number ((toString n).toList ++ '\n' :: rest) = some (integer n, '\n' :: rest) := by
  cases n with
  | ofNat n =>
    have hdecimal := decimal_toDigits false rfl hfits rest
    obtain ⟨c, ds, hds, hc, hzero⟩ := exists_toDigits n
    rw [toList_ofNat]
    rw [hds, List.cons_append] at hdecimal ⊢
    rw [number_digit hc, hdecimal]
    · rfl
    · intro h
      rw [hzero h]
      rfl
  | negSucc n =>
    have hdecimal := decimal_toDigits true (n := n + 1) rfl hfits rest
    obtain ⟨c, ds, hds, hc, hzero⟩ := exists_toDigits (n + 1)
    rw [toList_negSucc]
    rw [hds, List.cons_append] at hdecimal
    rw [hds, List.cons_append, List.cons_append, number_of_sign rfl hc, hdecimal]
    · rfl
    · exact fun _ _ heq => absurd (List.cons.inj heq).1 (by decide)

/-- A minus begins no time. -/
theorem calendarTime_minus (cs : List Char) : calendarTime ('-' :: cs) = none := by
  simp [calendarTime, date, timeOfDay, fixed, show Char.isDigit '-' = false from rfl]

theorem read_repr {n : Int} (hfits : fitsSigned 64 n = true) (rest : List Char) :
    read ((toString n).toList ++ '\n' :: rest) = some (integer n, '\n' :: rest) := by
  have hnumber := number_repr hfits rest
  cases n with
  | ofNat n =>
    rw [read, hnumber, toList_ofNat, calendarTime_digits isDigit_toDigits]
    rfl
  | negSucc n =>
    rw [read, hnumber, toList_negSucc, List.cons_append, calendarTime_minus]
    rfl

end Scalar

/-! ## Values -/

/-- A written scalar. -/
def scalarText : Document → List Char
  | .integer n => (toString n).toList
  | .bool b => if b then "true".toList else "false".toList
  | .text s => Quoting.quote s.toList
  | _ => []

/-- A scalar that can be written. -/
inductive Scalar.Storable : Document → Prop
  | integer {n : Int} (h : fitsSigned 64 n = true) : Storable (.integer n)
  | bool (b : Bool) : Storable (.bool b)
  | text (s : String) : Storable (.text s)

/-- A number is read as one. -/
theorem value_repr {n : Int} (hfits : fitsSigned 64 n = true) (fuel depth : Nat)
    (rest : List Char) :
    value (fuel + 1) depth ((toString n).toList ++ '\n' :: rest) =
      some (.integer n, '\n' :: rest) := by
  obtain ⟨c, cs, htext, hc⟩ := Scalar.exists_repr n
  have hne : ∀ {d : Char} {left : List Char}, d.isDigit = false → d ≠ '-' →
      c :: (cs ++ '\n' :: rest) = d :: left → False := by
    intro d left hdigit hminus heq
    rcases hc with hc | hc
    · exact hminus ((List.cons.inj heq).1.symm.trans hc)
    · exact Scalar.ne_of_isDigit hc hdigit (List.cons.inj heq).1
  have hread := Scalar.read_repr hfits rest
  rw [htext, List.cons_append] at hread ⊢
  rw [value, hread]
  · rfl
  all_goals exact fun _ => hne (by decide) (by decide)

theorem value_quote (cs : List Char) (fuel depth : Nat) (rest : List Char) :
    value (fuel + 1) depth (Quoting.quote cs ++ '\n' :: rest) =
      some (.text (String.ofList cs), '\n' :: rest) := by
  have hread : Quoting.read (Quoting.quote cs ++ '\n' :: rest) =
      some (String.ofList cs, '\n' :: rest) :=
    Quoting.read_quote cs (by simp) (by simp)
  obtain ⟨left, hquote | hquote⟩ := Quoting.exists_quote cs
  · rw [hquote, List.cons_append] at hread ⊢
    rw [value, hread]
    rfl
  · rw [hquote, List.cons_append] at hread ⊢
    rw [value, hread]
    rfl

theorem value_scalarText {d : Document} (h : Scalar.Storable d) (fuel depth : Nat)
    (rest : List Char) :
    value (fuel + 1) depth (scalarText d ++ '\n' :: rest) = some (d, '\n' :: rest) := by
  cases h with
  | integer h => exact value_repr h fuel depth rest
  | bool b => cases b <;> rfl
  | text s =>
    rw [scalarText, value_quote, String.ofList_toList]

end Historian.Toml
