import TermCalc.Number.Decimal
import TermCalc.Text.Digit

/-!
# The text of a number

The two ways in which numbers are written: as results, and in constructor notation. Both write the
digits of the shortest numeral; a layout says where positional notation ends and how an exponent
looks.

## Main definitions

* `Layout`: the decisions of a way of writing
* `Layout.write`: the text of a number
* `displayNumber x`: a number as a result
* `literalNumber x`: a number in constructor notation
-/

namespace TermCalc

/-- The decisions of a way of writing numbers. A numeral whose decimal point lies in the range from
`lowestPoint` to `highestPoint` is written positionally and every other one with an exponent of at
least `exponentWidth` digits. With `keepsFraction` an integral number ends in `.0`. -/
structure Layout where
  lowestPoint : Int
  highestPoint : Int
  exponentWidth : Nat
  keepsFraction : Bool
  nan : String
  infinity : String

namespace Layout

/-- Results: positional from `1e-6` up to `1e21`, with integral numbers as integers. -/
def result : Layout where
  lowestPoint := -5
  highestPoint := 21
  exponentWidth := 1
  keepsFraction := false
  nan := "NaN"
  infinity := "Infinity"

/-- Constructor notation: positional from `1e-4` up to `1e16`, with a fraction always. -/
def constructor : Layout where
  lowestPoint := -3
  highestPoint := 16
  exponentWidth := 2
  keepsFraction := true
  nan := "nan"
  infinity := "inf"

/-- Digits with zeros in front up to the given width. -/
def padded (width n : Nat) : List Char :=
  let ds := Text.decimalDigits n
  List.replicate (width - ds.length) '0' ++ ds

/-- The text of a positive numeral with digits `ds` and the decimal point at `point`. -/
def positive (l : Layout) (ds : List Char) (point : Int) : List Char :=
  if l.lowestPoint ≤ point && point ≤ l.highestPoint then
    if point ≤ 0 then '0' :: '.' :: List.replicate (-point).toNat '0' ++ ds
    else
      let whole := ds.take point.toNat ++ List.replicate (point.toNat - ds.length) '0'
      match ds.drop point.toNat with
      | [] => if l.keepsFraction then whole ++ ['.', '0'] else whole
      | fraction => whole ++ '.' :: fraction
  else
    let mantissa := match ds with
      | first :: next :: rest => first :: '.' :: next :: rest
      | ds => ds
    let sign := if point > 0 then '+' else '-'
    mantissa ++ 'e' :: sign :: padded l.exponentWidth (point - 1).natAbs

/-- The text of a pattern without its sign. -/
def unsigned (l : Layout) (bits : Nat) : List Char :=
  if bits == Binary64.infinity then l.infinity.toList
  else if bits == 0 then if l.keepsFraction then ['0', '.', '0'] else ['0']
  else
    let d := Decimal.shortest bits
    l.positive (Text.decimalDigits d.digits) d.point

/-- The text of a number. -/
def write (l : Layout) (x : Float) : String :=
  if x.isNaN then l.nan
  else
    let text := l.unsigned (Binary64.magnitude x)
    String.ofList (if Binary64.isNegative x then '-' :: text else text)

end Layout

namespace Binary64

/-- The natural number that a finite pattern stands for, if it stands for one. -/
def whole? (bits : Nat) : Option Nat :=
  let (num, den) := ratio bits
  if num % den == 0 then some (num / den) else none

end Binary64

/-- The text of an integral number below `10 ^ 21` in magnitude: all of its digits, and no sign on
zero. -/
def displayWhole? (x : Float) : Option String :=
  let bits := Binary64.magnitude x
  if x.isNaN || bits == Binary64.infinity then none
  else match Binary64.whole? bits with
    | none => none
    | some n =>
      if Nat.pow 10 21 ≤ n then none
      else some (Text.signedText (if Binary64.isNegative x then -(n : Int) else n))

/-- The text of a number as a result: an integral number below `10 ^ 21` with all of its digits,
every other one by the shortest numeral. -/
def displayNumber (x : Float) : String :=
  (displayWhole? x).getD (Layout.result.write x)

/-- The text of a number in constructor notation. -/
def literalNumber (x : Float) : String :=
  Layout.constructor.write x

example : displayNumber 1e21 = "1e+21" ∧ displayNumber (-0.0) = "0" ∧ displayNumber 1e-7 = "1e-7" ∧
    displayNumber 0.1 = "0.1" ∧ displayNumber 1e20 = "100000000000000000000" := by
  decide +kernel

example : literalNumber 1e16 = "1e+16" ∧ literalNumber (-0.0) = "-0.0" ∧
    literalNumber 1e-5 = "1e-05" := by
  decide +kernel

end TermCalc
