import Historian.Number.Binary64

/-!
# Decimal texts of double-precision numbers

A finite double is an exact fraction, and every text here is chosen by exact comparison with it.

* `shortest` — the fewest decimal digits that read back as the same double, and of the numerals of
  that length the one nearest to it.  Only how an exact half is settled is left to the caller.
* `positional` — the shortest digits written out in full, without an exponent.
* `compact` — the shortest digits as a JSON number: always with a point or an exponent.
* `scientific` — one digit, a fixed number of decimals, and an exponent.
-/

set_option autoImplicit false

namespace Historian

namespace Decimal

open Binary64 (Finite)

/-- How a number exactly between two numerals is rounded. -/
inductive Tie
  | toEven
  | up
  deriving DecidableEq

/-- A numeral: `digits * 10 ^ exponent`. -/
structure Numeral where
  digits : Nat
  exponent : Int
  deriving DecidableEq

/-- A fraction with a positive denominator. -/
structure Ratio where
  num : Nat
  den : Nat

/-- `r` measured in units of `10 ^ e`. -/
def Ratio.inUnits (r : Ratio) (e : Int) : Ratio :=
  ⟨r.num * tenTo (-e).toNat, r.den * tenTo e.toNat⟩

/-- `m * 2 ^ q` as a fraction. -/
def dyadic (m : Nat) (q : Int) : Ratio := ⟨m * twoTo q.toNat, twoTo (-q).toNat⟩

/-- How many digits the whole part of a positive fraction takes; for a fraction below one tenth,
minus the number of zeros after its point. -/
def magnitude (r : Ratio) : Int :=
  let guess : Int := ((Nat.log2 r.num : Int) - (Nat.log2 r.den : Int)) * 30103 / 100000
  let reaches (k : Int) : Bool := let s := r.inUnits k; s.den ≤ s.num
  if reaches (guess + 1) then guess + 2 else if reaches guess then guess + 1
  else if reaches (guess - 1) then guess else guess - 1

/-- The numbers that read back as one double, with the double itself. -/
structure Basin where
  low : Ratio
  value : Ratio
  high : Ratio
  /-- Whether the ends belong to it. -/
  closed : Bool

/-- The basin of a positive finite number: half a spacing to each side, a quarter below a power of
two, where the spacing halves.  The ends round to an even significand. -/
def basin (x : Finite) : Basin :=
  let m := 4 * x.significand
  let q := x.exponent - 2
  let below := if x.significand = twoTo 52 ∧ x.exponent ≠ -1074 then 1 else 2
  ⟨dyadic (m - below) q, dyadic m q, dyadic (m + 2) q, x.significand % 2 = 0⟩

/-- Whether `c` units of `10 ^ e` lie in the basin. -/
def Basin.holds (b : Basin) (c : Nat) (e : Int) : Bool :=
  let low := b.low.inUnits e
  let high := b.high.inUnits e
  if b.closed then low.num ≤ c * low.den && c * high.den ≤ high.num
  else low.num < c * low.den && c * high.den < high.num

/-- The numeral nearest to the basin's value among its two neighbours in units of `10 ^ e`, if one
of them lies in the basin. -/
def nearest? (b : Basin) (tie : Tie) (e : Int) : Option Numeral :=
  let v := b.value.inUnits e
  let c := v.num / v.den
  let twice := 2 * (v.num % v.den)
  let roundUp : Bool := v.den < twice || (twice == v.den && (tie == .up || c % 2 == 1))
  match b.holds c e, b.holds (c + 1) e with
  | true, true => some ⟨if roundUp then c + 1 else c, e⟩
  | true, false => some ⟨c, e⟩
  | false, true => some ⟨c + 1, e⟩
  | false, false => none

/-- Moves trailing zeros of the digits into the exponent, at most `fuel` of them. -/
def stripZeros : Nat → Numeral → Numeral
  | 0, n => n
  | fuel + 1, n =>
    if n.digits % 10 = 0 ∧ n.digits ≠ 0 then stripZeros fuel ⟨n.digits / 10, n.exponent + 1⟩ else n

/-- The fewest digits that read back as `x`.  Seventeen always do. -/
def shortest (tie : Tie) (x : Finite) : Numeral :=
  if x.significand = 0 then ⟨0, 0⟩
  else
    let b := basin x
    let k := magnitude b.value
    let found := (List.range 17).findSome? fun n => nearest? b tie (k - (n + 1 : Nat))
    stripZeros 17 (found.getD ⟨0, 0⟩)

/-! ## Written forms -/

/-- `n` zeros. -/
def zeros (n : Nat) : String := "".pushn '0' n

/-- Puts the point into a numeral; a whole number gets `wholeTail` instead. -/
def withPoint (n : Numeral) (wholeTail : String) : String :=
  let text := toString n.digits
  if 0 ≤ n.exponent then text ++ zeros n.exponent.toNat ++ wholeTail
  else
    let places := (-n.exponent).toNat
    if places < text.length then
      let chars := text.toList
      String.ofList (chars.take (text.length - places)) ++ "." ++
        String.ofList (chars.drop (text.length - places))
    else "0." ++ zeros (places - text.length) ++ text

/-- A minus sign for a negative number. -/
def sign (x : Binary64) : String := if x.isNegative then "-" else ""

/-- The shortest digits in full: never an exponent, no point in a whole number, a half rounded up. -/
def positional (x : Binary64) : String :=
  match x.finite? with
  | some f => sign x ++ withPoint (shortest .up f) ""
  | none => if x.isNaN then "NaN" else sign x ++ "inf"

/-- The shortest digits with an exponent, the point after the first digit. -/
def withExponent (n : Numeral) : String :=
  let text := toString n.digits
  let e := n.exponent + (text.length : Int) - 1
  let rest := String.ofList (text.toList.drop 1)
  String.ofList (text.toList.take 1) ++ (if rest.isEmpty then "" else "." ++ rest) ++ "e" ++ toString e

/-- A JSON number: whole numbers below `10 ^ 16` end in `.0`, numbers from `10 ^ -5` to `10 ^ 16` are
written with a point, all others with an exponent.  What is not finite is `null`. -/
def compact (x : Binary64) : String :=
  match x.finite? with
  | none => "null"
  | some f =>
    let n := shortest .toEven f
    let top : Int := (toString n.digits).length + n.exponent
    sign x ++ (if n.digits = 0 then "0.0"
      else if -5 < top ∧ top ≤ 16 then withPoint n ".0" else withExponent n)

/-- One digit, `places` decimals and an exponent, a half going to the even digit. -/
def scientific (places : Nat) (x : Binary64) : String :=
  match x.finite? with
  | none => if x.isNaN then "NaN" else sign x ++ "inf"
  | some f =>
    let r := dyadic f.significand f.exponent
    let rounded : Nat × Int :=
      if f.significand = 0 then (0, 0)
      else
        let e := magnitude r - (places + 1 : Nat)
        let s := r.inUnits e
        let c := Binary64.roundScaled s.num s.den 0
        if c = tenTo (places + 1) then (tenTo places, e + 1 + places) else (c, e + places)
    let text := toString rounded.1
    let padded := zeros (places + 1 - text.length) ++ text
    sign x ++ String.ofList (padded.toList.take 1) ++ "." ++ String.ofList (padded.toList.drop 1) ++
      "e" ++ toString rounded.2

example : shortest .up ⟨1, -1074⟩ = ⟨5, -324⟩ := by decide +kernel
example : shortest .up ⟨0x1999999999999a, -56⟩ = ⟨1, -1⟩ := by decide +kernel

end Decimal

end Historian
