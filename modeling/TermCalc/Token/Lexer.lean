import TermCalc.Text.Blank
import TermCalc.Token

/-!
# Cutting a text into tokens

Each kind of token has an *extent*: how many characters from the front of a text belong to a token
of that kind, none if the text does not start with one. The kinds are tried in the order comment,
blank, constant, operator, symbol, and the first with an extent wins, not the longest. A minus sign
is part of a constant only where an operand is expected.

## Main definitions

* `Lexer.lexeme? operand cs`: the kind and extent of the first token
* `Lexer.scan`: the tokens from the front of a text and the part that starts with none
* `Token.ofSource? s`: the tokens of `s`, or the offset at which none starts
-/

namespace TermCalc

namespace Lexer

/-! ## The extents of the kinds -/

/-- The extent of a comment: two minus signs and all that follows on the line. -/
def commentExtent : List Char → Nat
  | '-' :: '-' :: rest => 2 + (rest.takeWhile (· != '\n')).length
  | _ => 0

/-- The extent of blanks. -/
def blankExtent (cs : List Char) : Nat :=
  (cs.takeWhile Text.isBlank).length

/-- The extent of decimal digits of any script. -/
def digitsExtent (cs : List Char) : Nat :=
  (cs.takeWhile Text.isDigit).length

/-- The extent of an exponent: its letter, an optional sign and at least one digit. -/
def exponentExtent : List Char → Nat
  | c :: rest =>
    if c == 'e' || c == 'E' then
      let signed := match rest with
        | s :: _ => s == '+' || s == '-'
        | [] => false
      let digits := digitsExtent (if signed then rest.drop 1 else rest)
      if digits == 0 then 0 else 1 + (if signed then 1 else 0) + digits
    else 0
  | [] => 0

/-- The extent of the digits of a numeral, with at least one digit after a point if there is
one. -/
def mantissaExtent (cs : List Char) : Nat :=
  let whole := digitsExtent cs
  match cs.drop whole with
  | '.' :: rest =>
    let fraction := digitsExtent rest
    if fraction == 0 then whole else whole + 1 + fraction
  | _ => whole

/-- The extent of a decimal numeral without a sign. -/
def numeralExtent (cs : List Char) : Nat :=
  let mantissa := mantissaExtent cs
  if mantissa == 0 then 0 else mantissa + exponentExtent (cs.drop mantissa)

/-- The extent of an unsigned number: the word `Infinity` or a numeral. -/
def unsignedExtent (cs : List Char) : Nat :=
  if "Infinity".toList.isPrefixOf cs then 8 else numeralExtent cs

/-- The extent of a constant; with `operand` a minus sign may precede the number. -/
def constantExtent (operand : Bool) (cs : List Char) : Nat :=
  if "NaN".toList.isPrefixOf cs then 3
  else match operand, cs with
    | true, '-' :: rest => let number := unsignedExtent rest; if number == 0 then 0 else 1 + number
    | _, cs => unsignedExtent cs

/-- The characters that are operators by themselves. -/
def operatorChars : List Char :=
  ['=', '+', '-', '*', '/', '(', ')', '[', ']', '^', '%', ',']

/-- The extent of an operator. -/
def operatorExtent : List Char → Nat
  | '-' :: '>' :: _ => 2
  | c :: _ => if operatorChars.contains c then 1 else 0
  | [] => 0

/-- The characters with which a symbol starts: ASCII letters, `_` and `$`. -/
def isSymbolStart (c : Char) : Bool :=
  c.isAlpha || c == '_' || c == '$'

/-- The characters of a symbol: those that start one and the ASCII digits. -/
def isSymbolPart (c : Char) : Bool :=
  isSymbolStart c || c.isDigit

/-- The extent of a symbol. -/
def symbolExtent : List Char → Nat
  | c :: rest => if isSymbolStart c then 1 + (rest.takeWhile isSymbolPart).length else 0
  | [] => 0

/-- The extent of a token of the given kind. -/
def extent (operand : Bool) (cs : List Char) : TokenKind → Nat
  | .comment => commentExtent cs
  | .whitespace => blankExtent cs
  | .constant => constantExtent operand cs
  | .operator => operatorExtent cs
  | .symbol => symbolExtent cs

/-! ## The tokens of a text -/

/-- The order in which the kinds are tried. -/
def kindOrder : List TokenKind :=
  [.comment, .whitespace, .constant, .operator, .symbol]

/-- The kind and extent of the token at the front of a text, if there is one. -/
def lexeme? (operand : Bool) (cs : List Char) : Option (TokenKind × Nat) :=
  (kindOrder.find? fun kind => extent operand cs kind != 0).map fun kind =>
    (kind, extent operand cs kind)

theorem extent_pos_of_lexeme? {operand : Bool} {cs : List Char} {kind : TokenKind} {n : Nat}
    (h : lexeme? operand cs = some (kind, n)) : 0 < n := by
  obtain ⟨k, hk, he⟩ := Option.map_eq_some_iff.1 h
  have := List.find?_some hk
  simp only [Prod.mk.injEq] at he
  simp only [bne_iff_ne, ne_eq] at this
  omega

theorem lexeme?_nil (operand : Bool) : lexeme? operand [] = none := by
  cases operand <;> decide

/-- The tokens from the front of a text on, and what is left where no token starts. The text is
what follows after `position` characters, and `operand` says whether an operand is expected. -/
def scan (operand : Bool) (position : Nat) (cs : List Char) : List Token × List Char :=
  match _h : lexeme? operand cs with
  | none => ([], cs)
  | some (kind, n) =>
    let t : Token := ⟨kind, String.ofList (cs.take n), position⟩
    let (ts, left) := scan (t.operandExpectedAfter operand) (position + n) (cs.drop n)
    (t :: ts, left)
termination_by cs.length
decreasing_by
  -- a token has an extent, so less of the text is left after it
  have hn := extent_pos_of_lexeme? _h
  cases cs with
  | nil => simp [lexeme?_nil] at _h
  | cons c rest => simp only [List.length_drop, List.length_cons]; omega

end Lexer

/-- The tokens of `source`; if a part of it starts with no token, the offset of the first such
part. -/
def Token.ofSource? (source : String) : Except Nat (List Token) :=
  let (ts, left) := Lexer.scan true 0 source.toList
  if left.isEmpty then .ok ts else .error (source.length - left.length)

example : ((Token.ofSource? "1-2 -- c").map Token.significant).toOption =
    some [⟨.constant, "1", 0⟩, ⟨.operator, "-", 1⟩, ⟨.constant, "2", 2⟩] := by
  decide +kernel

end TermCalc
