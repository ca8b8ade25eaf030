/-!
# Double-precision numbers by their bit pattern

A `Binary64` is the 64-bit word of a double: one sign bit, eleven bits of exponent and fifty-two of
fraction.  All arithmetic here is on whole numbers, so every value is exact and two numbers are the
same exactly when their words are (a zero keeps its sign and a NaN its payload).

* `twoTo` and `tenTo` are the powers that binary and decimal numerals are made of; `fitsUnsigned` and
  `fitsSigned` say which whole numbers so many bits can hold.
* `Binary64.finite?` reads a word as `significand * 2 ^ exponent`.
* `Binary64.ofRatio` is the nearest double to a fraction, a tie going to the even significand.
* `Binary64.ofDecimal` is the nearest double to a decimal numeral.
-/

set_option autoImplicit false

namespace Historian

/-! ## Powers, and whole numbers of a fixed width -/

/-- A power of two. -/
def twoTo (k : Nat) : Nat := Nat.pow 2 k

/-- A power of ten. -/
def tenTo (k : Nat) : Nat := Nat.pow 10 k

/-- Whether so many bits can hold a number, without a sign. -/
def fitsUnsigned (bits : Nat) (n : Int) : Bool := decide (0 ≤ n) && decide (n < twoTo bits)

/-- Whether so many bits can hold a number, one of them for its sign. -/
def fitsSigned (bits : Nat) (n : Int) : Bool :=
  decide (-(twoTo (bits - 1) : Int) ≤ n) && decide (n < twoTo (bits - 1))

example : fitsUnsigned 32 4294967295 = true ∧ fitsUnsigned 32 4294967296 = false := by decide
example : fitsSigned 64 (-9223372036854775808) = true ∧ fitsSigned 64 9223372036854775808 = false := by
  decide

/-! ## Doubles -/

/-- A double-precision number, by its bit pattern. -/
structure Binary64 where
  bits : UInt64
  deriving DecidableEq, Inhabited

namespace Binary64

/-- The first pattern past the finite ones: an infinity without its sign. -/
def infinityBits : Nat := 2047 * twoTo 52

/-- The bits below the sign. -/
def magnitudeBits (x : Binary64) : Nat := x.bits.toNat % twoTo 63

/-- Whether the sign bit is set. -/
def isNegative (x : Binary64) : Bool := twoTo 63 ≤ x.bits.toNat

/-- Whether the word is one of the NaN patterns. -/
def isNaN (x : Binary64) : Bool := infinityBits < x.magnitudeBits

/-- Whether the word is an infinity. -/
def isInfinite (x : Binary64) : Bool := x.magnitudeBits == infinityBits

/-- Whether the word is a zero of either sign. -/
def isZero (x : Binary64) : Bool := x.magnitudeBits == 0

/-- The absolute value of a finite number is `significand * 2 ^ exponent`. -/
structure Finite where
  significand : Nat
  exponent : Int
  deriving DecidableEq

/-- Reads the absolute value of a finite number; infinities and NaNs have none. -/
def finite? (x : Binary64) : Option Finite :=
  let field : Nat := x.magnitudeBits / twoTo 52
  let fraction : Nat := x.magnitudeBits % twoTo 52
  if field = 2047 then none
  else if field = 0 then some ⟨fraction, -1074⟩
  else some ⟨twoTo 52 + fraction, (field : Int) - 1075⟩

/-- The word with the given sign and magnitude bits. -/
def ofMagnitude (negative : Bool) (magnitude : Nat) : Binary64 :=
  ⟨UInt64.ofNat (magnitude + if negative then twoTo 63 else 0)⟩

/-- Zero. -/
def zero : Binary64 := ⟨0⟩

/-- `num / den` scaled by `2 ^ -exponent`, rounded to a whole number, a half going to the even one. -/
def roundScaled (num den : Nat) (exponent : Int) : Nat :=
  let n := num * twoTo (-exponent).toNat
  let d := den * twoTo exponent.toNat
  let q := n / d
  let twice := 2 * (n % d)
  if twice < d then q else if d < twice then q + 1 else q + q % 2

/-- The exponent whose unit is the spacing of doubles around `num / den`, for positive arguments. -/
def spacing (num den : Nat) : Int :=
  let guess : Int := (Nat.log2 num : Int) - (Nat.log2 den : Int) - 52
  let n := num * twoTo (-guess).toNat
  let d := den * twoTo guess.toNat
  let fitted := if n < twoTo 52 * d then guess - 1 else guess
  max fitted (-1074)

/-- The nearest double to `num / den` (`den` positive), a tie going to the even significand. -/
def ofRatio (negative : Bool) (num den : Nat) : Binary64 :=
  if num = 0 then ofMagnitude negative 0
  else
    let exponent := spacing num den
    let significand := roundScaled num den exponent
    let magnitude :=
      if significand < twoTo 52 then significand
      else (exponent + 1074).toNat * twoTo 52 + significand
    ofMagnitude negative (min magnitude infinityBits)

/-- The nearest double to `digits * 10 ^ exponent`.  Exponents far outside the range of doubles are
answered without computing the power. -/
def ofDecimal (negative : Bool) (digits : Nat) (exponent : Int) : Binary64 :=
  let width : Int := Nat.log2 digits
  if digits = 0 then ofMagnitude negative 0
  else if 310 < width / 4 + exponent then ofMagnitude negative infinityBits
  else if width / 3 + 1 + exponent < -330 then ofMagnitude negative 0
  else if 0 ≤ exponent then ofRatio negative (digits * tenTo exponent.toNat) 1
  else ofRatio negative digits (tenTo (-exponent).toNat)

/-- The double of a whole number. -/
def ofInt (n : Int) : Binary64 := ofRatio (n < 0) n.natAbs 1

example : ofInt 1 = ⟨0x3ff0000000000000⟩ := by decide
example : ofInt (-2147483648) = ⟨0xc1e0000000000000⟩ := by decide
example : ofDecimal false 1 (-1) = ⟨0x3fb999999999999a⟩ := by decide
example : ofDecimal true 5 (-324) = ⟨0x8000000000000001⟩ := by decide +kernel

end Binary64

end Historian
