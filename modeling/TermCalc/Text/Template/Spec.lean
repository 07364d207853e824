import TermCalc.Text.Template.Error

/-!
# Cutting and padding

A field of a template may ask for its text to be cut to a precision and padded to a width. The
specification is, in this order and each part optional: a fill character and an alignment, a sign,
`z`, `#`, a zero that asks for zeros as fill, the width, a separator of thousands, a point with the
precision, and the letter of a kind. For a text only alignment, width, precision and the kind `s`
are in order.

## Main definitions

* `Template.number?`, `Template.readSpec`: reading a specification
* `Template.applySpec`: a text cut and padded
-/

namespace TermCalc.Template

/-- A number written in digits; `none` if there is none. Leading digits that are worth too much are
an error even if other characters follow. -/
def number? (cs : List Char) : Except TemplateError (Option Nat) :=
  let n := Text.digitsValue (cs.takeWhile Text.isDigit)
  if 0x8000000000000000 ≤ n then .error .numberTooLarge
  else .ok (if cs.isEmpty || !cs.all Text.isDigit then none else some n)

/-! ## Reading a specification -/

/-- What a specification asks for. -/
structure Spec where
  fill : Char
  align : Char
  sign : Option Char
  zero : Bool
  alternate : Bool
  width : Nat
  precision : Option Nat
  kind : Char

/-- Whether a character is an alignment: left, right, centred or after the sign. -/
def isAlignment (c : Char) : Bool :=
  c == '<' || c == '>' || c == '^' || c == '='

/-- Splits a fill character, if there is one, and an alignment off. -/
def splitAlignment (cs : List Char) : Option Char × Char × List Char :=
  match cs with
  | fill :: align :: rest =>
    if isAlignment align then (some fill, align, rest)
    else if isAlignment fill then (none, fill, align :: rest)
    else (none, '<', cs)
  | [align] => if isAlignment align then (none, align, []) else (none, '<', cs)
  | [] => (none, '<', [])

/-- Splits the first character off if it satisfies `p`. -/
def splitIf (p : Char → Bool) : List Char → Option Char × List Char
  | c :: cs => if p c then (some c, cs) else (none, c :: cs)
  | [] => (none, [])

/-- Splits a number off; `none` if no digit stands there. -/
def splitNumber (cs : List Char) : Except TemplateError (Option Nat × List Char) := do
  let n ← number? (cs.takeWhile Text.isDigit)
  .ok (n, cs.dropWhile Text.isDigit)

/-- Splits a separator of thousands off. There cannot be two different ones. -/
def splitSeparator (cs : List Char) : Except TemplateError (Option Char × List Char) :=
  match cs with
  | ',' :: '_' :: _ => .error .bothSeparators
  | '_' :: ',' :: _ => .error .bothSeparators
  | c :: rest => if c == ',' || c == '_' then .ok (some c, rest) else .ok (none, cs)
  | [] => .ok (none, [])

/-- Splits a point and a precision off. -/
def splitPrecision (cs : List Char) : Except TemplateError (Option Nat × List Char) :=
  match cs with
  | '.' :: rest => do
    let (precision, rest) ← splitNumber rest
    if precision.isNone then .error .missingPrecision else .ok (precision, rest)
  | cs => .ok (none, cs)

/-- Whether numbers of a kind may have that separator between their thousands. -/
def separates (separator kind : Char) : Bool :=
  "deEfFgG%\x00".toList.contains kind || (separator == '_' && "boxX".toList.contains kind)

/-- Reads a specification. -/
def readSpec (cs : List Char) : Except TemplateError Spec := do
  let (fill, align, rest) := splitAlignment cs
  let (sign, rest) := splitIf (fun c => c == ' ' || c == '+' || c == '-') rest
  let (zero, rest) := splitIf (· == 'z') rest
  let (alternate, rest) := splitIf (· == '#') rest
  let (zeros, rest) := if fill.isNone then splitIf (· == '0') rest else (none, rest)
  let (width, rest) ← splitNumber rest
  let (separator, rest) ← splitSeparator rest
  let (precision, rest) ← splitPrecision rest
  let kind ← match rest with
    | [] => .ok 's'
    | [kind] => .ok kind
    | _ => .error (.badSpec (String.ofList cs))
  match separator with
  | some separator =>
    if !separates separator kind then throw (.misplacedSeparator separator kind)
  | none => pure ()
  .ok
    { fill := fill.getD (zeros.getD ' ')
      align := align
      sign := sign
      zero := zero.isSome
      alternate := alternate.isSome
      width := width.getD 0
      precision := precision
      kind := kind }

/-! ## Cutting and padding a text -/

/-- Whether a specification is in order for a text. -/
def checkSpec (s : Spec) : Except TemplateError Unit :=
  if s.kind != 's' then .error (.unknownKind s.kind)
  else match s.sign with
    | some sign => .error (if sign == ' ' then .spaceNotAllowed else .signNotAllowed)
    | none =>
      if s.zero then .error .zeroNotAllowed
      else if s.alternate then .error .alternateNotAllowed
      else if s.align == '=' then .error .alignmentNotAllowed
      else .ok ()

/-- The text with fill characters around it up to a width. -/
def pad (fill align : Char) (width : Nat) (cs : List Char) : List Char :=
  let missing := width - cs.length
  let before := if align == '>' then missing else if align == '^' then missing / 2 else 0
  List.replicate before fill ++ cs ++ List.replicate (missing - before) fill

/-- The width from which on a text cannot be kept. -/
def widthLimit : Nat :=
  0x100000000

/-- The text cut and padded as a specification asks for. -/
def applySpec (cs spec : List Char) : Except TemplateError (List Char) := do
  if spec.isEmpty then return cs
  let s ← readSpec spec
  checkSpec s
  if widthLimit ≤ s.width then throw .tooWide
  let cut := match s.precision with
    | some n => cs.take n
    | none => cs
  .ok (pad s.fill s.align s.width cut)

end TermCalc.Template
