import TermCalc.Number.Binary64

/-!
# Decimal numerals

A decimal numeral is a natural number of units of a power of ten. Reading rounds it to the nearest
binary64 pattern. Writing finds the shortest numeral that reads back as a given pattern.

## Main definitions

* `Decimal`: `digits · 10 ^ exponent`
* `Decimal.bits d`: the pattern that `d` reads as
* `Decimal.shortest bits`: the numeral with the fewest digits that reads as `bits`, and of those the
  nearest to the number itself
-/

namespace TermCalc

/-- The numeral `digits · 10 ^ exponent`. -/
structure Decimal where
  digits : Nat
  exponent : Int
deriving Repr, DecidableEq

namespace Decimal

/-! ## Reading -/

/-- How many decimal digits `n` has; one for zero. -/
def digitCount (n : Nat) : Nat :=
  (Nat.toDigits 10 n).length

/-- The position of the decimal point of `d`, counted from before its first digit: a positive `d`
lies between `10 ^ (point - 1)` and `10 ^ point`. -/
def point (d : Decimal) : Int :=
  digitCount d.digits + d.exponent

/-- The numeral as a ratio of natural numbers. -/
def ratio (d : Decimal) : Nat × Nat :=
  match d.exponent with
  | .ofNat e => (d.digits * Nat.pow 10 e, 1)
  | .negSucc e => (d.digits, Nat.pow 10 (e + 1))

/-- The binary64 pattern nearest to `d`. Numerals far outside the range of binary64 are decided by
the position of their point alone. -/
def bits (d : Decimal) : Nat :=
  if d.digits == 0 || d.point < -330 then 0
  else if d.point > 330 then Binary64.infinity
  else Binary64.nearest d.ratio.1 d.ratio.2

/-- The number that reads as `d`, with the given sign. -/
def toFloat (negative : Bool) (d : Decimal) : Float :=
  Binary64.ofMagnitude negative d.bits

/-! ## Writing -/

/-- The same numeral without trailing zeros among at most `fuel` of its digits. -/
def strip : (fuel : Nat) → Decimal → Decimal
  | 0, d => d
  | fuel + 1, d =>
    if d.digits % 10 == 0 && d.digits != 0 then strip fuel ⟨d.digits / 10, d.exponent + 1⟩ else d

/-- The same numeral without trailing zeros. -/
def normalize (d : Decimal) : Decimal :=
  d.strip (digitCount d.digits)

/-- The numeral that is exactly the finite pattern `bits`. -/
def exact (bits : Nat) : Decimal :=
  match Binary64.exponent bits with
  | .ofNat e => ⟨Binary64.significand bits * Nat.pow 2 e, 0⟩
  | .negSucc e => ⟨Binary64.significand bits * Nat.pow 5 (e + 1), .negSucc e⟩

/-- The position of the decimal point of the positive ratio `num / den`. -/
def ratioPoint (num den : Nat) : Int :=
  if den ≤ num then digitCount (num / den) else 1 - (digitCount ((den - 1) / num) : Int)

/-- The multiple of `10 ^ e` at or below `num / den`, and twice the remainder compared with the
step: which of the two neighbouring multiples is nearer. -/
def below (num den : Nat) (e : Int) : Nat × Ordering :=
  let (n, d) := match e with
    | .ofNat e => (num, den * Nat.pow 10 e)
    | .negSucc e => (num * Nat.pow 10 (e + 1), den)
  (n / d, compare (2 * (n % d)) d)

/-- The numeral of at most `count` digits that reads as `bits`, if there is one. Of two the nearer
is taken, and of two equally near ones the even. -/
def withDigits (bits count : Nat) : Option Decimal :=
  let (num, den) := Binary64.ratio bits
  let e := ratioPoint num den - count
  let (low, side) := below num den e
  let lower : Decimal := ⟨low, e⟩
  let upper : Decimal := ⟨low + 1, e⟩
  match lower.bits == bits, upper.bits == bits with
  | true, true =>
    match side with
    | .lt => some lower
    | .gt => some upper
    | .eq => some (if low % 2 == 0 then lower else upper)
  | true, false => some lower
  | false, true => some upper
  | false, false => none

/-- The shortest numeral that reads as the positive finite pattern `bits`, among the numerals of at
most seventeen digits and, should none of them do, the exact one. -/
def shortest (bits : Nat) : Decimal :=
  (((List.range 17).findSome? fun n => withDigits bits (n + 1)).getD (exact bits)).normalize

example : shortest 0x3FB999999999999A = ⟨1, -1⟩ ∧ shortest 1 = ⟨5, -324⟩ := by
  decide +kernel

end Decimal

end TermCalc
