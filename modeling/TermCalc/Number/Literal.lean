import TermCalc.Number.Decimal
import TermCalc.Text.Blank
import TermCalc.Text.Digit

/-!
# Reading numbers

The numerals that denote a number or an integer. Digits may be of any script, blanks may stand
around a numeral, and a single underscore may stand between two digits.

## Main definitions

* `number? image`: the number that a numeral denotes
* `integer? image`: the integer that a numeral denotes
-/

namespace TermCalc

namespace Literal

/-- A numeral in ASCII characters: digits of any script become ASCII digits and blanks become
spaces. A text that is ASCII already stays as it is; `none` if another character occurs. -/
def toAscii (cs : List Char) : Option (List Char) :=
  if cs.all (·.toNat < 0x80) then some cs
  else cs.mapM fun c =>
    if c.toNat < 0x7F then some c
    else if Text.isBlank c then some ' '
    else (Text.digitValue? c).map Text.digitChar

/-- The characters without their underscores, if each stands between two digits; `previous` is
the character before them. -/
def dropUnderscores (previous : Char) : List Char → Option (List Char)
  | [] => some []
  | '_' :: rest =>
    match rest with
    | next :: _ =>
      if previous.isDigit && next.isDigit then dropUnderscores '_' rest else none
    | [] => none
  | c :: rest => (dropUnderscores c rest).map (c :: ·)

/-- The bare characters of a numeral: in ASCII, without blanks around it and underscores in it. -/
def bare (image : String) : Option (List Char) := do
  let cs ← toAscii image.toList
  dropUnderscores ' ' (Text.dropAround Text.isAsciiBlank cs)

/-- Splits a sign off; the flag says whether it is a minus. -/
def splitSign : List Char → Bool × List Char
  | '-' :: cs => (true, cs)
  | '+' :: cs => (false, cs)
  | cs => (false, cs)

/-- Splits the leading ASCII digits off. -/
def splitDigits (cs : List Char) : List Char × List Char :=
  (cs.takeWhile Char.isDigit, cs.dropWhile Char.isDigit)

/-- The integer that a sign and digits denote. -/
def signed (negative : Bool) (digits : List Char) : Int :=
  if negative then -(Text.digitsValue digits : Int) else Text.digitsValue digits

/-- Reads an exponent to its end; an empty one is zero. -/
def exponent? : List Char → Option Int
  | [] => some 0
  | c :: cs =>
    if c == 'e' || c == 'E' then
      let (negative, cs) := splitSign cs
      if cs.isEmpty || !cs.all Char.isDigit then none else some (signed negative cs)
    else none

/-- Reads an unsigned decimal numeral with an optional fraction and exponent. -/
def decimal? (cs : List Char) : Option Decimal :=
  let (whole, rest) := splitDigits cs
  let (fraction, rest) := match rest with
    | '.' :: rest => splitDigits rest
    | rest => ([], rest)
  if whole.isEmpty && fraction.isEmpty then none
  else (exponent? rest).map fun e =>
    ⟨Text.digitsValue (whole ++ fraction), e - fraction.length⟩

/-- The names of infinity. -/
def infinityNames : List (List Char) :=
  [['i', 'n', 'f'], ['i', 'n', 'f', 'i', 'n', 'i', 't', 'y']]

/-- The name of the number that is none. -/
def nanName : List Char :=
  ['n', 'a', 'n']

/-- Reads an unsigned numeral or the name of a special number, in letters of either case. -/
def unsigned? (negative : Bool) (cs : List Char) : Option Float :=
  let lower := cs.map Char.toLower
  if infinityNames.contains lower then some (Binary64.ofMagnitude negative Binary64.infinity)
  else if lower == nanName then some (0.0 / 0.0)
  else (decimal? cs).map (Decimal.toFloat negative)

/-- The most digits that an integer may be written with. -/
def maxIntegerDigits : Nat :=
  4300

end Literal

open Literal in
/-- The number that `image` denotes, rounded to the nearest binary64 number. -/
def number? (image : String) : Option Float := do
  let cs ← bare image
  let (negative, cs) := splitSign cs
  unsigned? negative cs

open Literal in
/-- The integer that `image` denotes, if it has no more than `Literal.maxIntegerDigits` digits. -/
def integer? (image : String) : Option Int := do
  let cs ← bare image
  let (negative, cs) := splitSign cs
  if cs.isEmpty || !cs.all Char.isDigit || maxIntegerDigits < cs.length then none
  else some (signed negative cs)

example : number? " 1_0.5e-1 " = some 1.05 ∧ number? "-٣.١" = some (-3.1) ∧ number? "1__0" = none ∧
    number? "." = none := by
  decide +kernel

end TermCalc
