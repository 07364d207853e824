/-!
# Binary64 numbers

The bit patterns of the nonnegative binary64 numbers, read as natural numbers: they are in the order
of the numbers they stand for, from 0 to the pattern of infinity. A finite pattern is decoded into
`significand · 2 ^ exponent`, and a ratio of natural numbers is rounded to the nearest pattern.

## Main definitions

* `magnitude x`, `isNegative x`, `ofMagnitude negative bits`: a number as sign and pattern
* `significand bits`, `exponent bits`: the decoding of a pattern
* `nearest num den`: the pattern nearest to `num / den`, a tie going to the even one
-/

namespace TermCalc.Binary64

/-! ## Patterns -/

/-- The pattern of infinity; every pattern below it is finite. -/
def infinity : Nat :=
  0x7FF0000000000000

/-- Whether the sign bit of `x` is set. -/
def isNegative (x : Float) : Bool :=
  0x8000000000000000 ≤ x.toBits.toNat

/-- The pattern of `x` without its sign. -/
def magnitude (x : Float) : Nat :=
  x.toBits.toNat % 0x8000000000000000

/-- The number with the given sign and pattern. -/
def ofMagnitude (negative : Bool) (bits : Nat) : Float :=
  Float.ofBits (UInt64.ofNat (if negative then 0x8000000000000000 + bits else bits))

/-- The integer factor of a finite pattern. -/
def significand (bits : Nat) : Nat :=
  if bits < 0x10000000000000 then bits else 0x10000000000000 + bits % 0x10000000000000

/-- The binary exponent that goes with `significand`. -/
def exponent (bits : Nat) : Int :=
  ((max 1 (bits / 0x10000000000000) : Nat) : Int) - 1075

/-- A finite pattern as a ratio of natural numbers. -/
def ratio (bits : Nat) : Nat × Nat :=
  match exponent bits with
  | .ofNat e => (significand bits * Nat.pow 2 e, 1)
  | .negSucc e => (significand bits, Nat.pow 2 (e + 1))

/-! ## Rounding -/

/-- The quotient `num / den` rounded to a natural number, a half going to the even neighbour. -/
def roundedQuotient (num den : Nat) : Nat :=
  let low := num / den
  let twice := 2 * (num % den)
  if twice < den || (twice == den && low % 2 == 0) then low else low + 1

/-- The ratio `num / den` divided by `2 ^ e`. -/
def scaled (num den : Nat) : Int → Nat × Nat
  | .ofNat e => (num, den * Nat.pow 2 e)
  | .negSucc e => (num * Nat.pow 2 (e + 1), den)

/-- The exponent of the leading binary digit of `num / den`, for positive arguments. -/
def leadingExponent (num den : Nat) : Int :=
  let e : Int := (num.log2 : Int) - (den.log2 : Int)
  let (n, d) := scaled num den e
  if n < d then e - 1 else e

/-- The exponent of the last binary digit that a pattern can hold of `num / den`. -/
def lastExponent (num den : Nat) : Int :=
  max (leadingExponent num den - 52) (-1074)

/-- The pattern nearest to `num / den`, a tie going to the even pattern, and infinity from half a
step beyond the greatest finite number on. -/
def nearest (num den : Nat) : Nat :=
  if num == 0 then 0
  else
    let e := lastExponent num den
    let (n, d) := scaled num den e
    min infinity ((e + 1074).toNat * 0x10000000000000 + roundedQuotient n d)

example : nearest 1 10 = 0x3FB999999999999A ∧ nearest (2 ^ 1024) 1 = infinity := by
  decide +kernel

end TermCalc.Binary64
