import TermCalc.Text.Digit
import TermCalc.Text.Quoted

/-!
# Tokens

The lexemes of a statement. Blanks and comments are tokens too, so that the images of all tokens
make up the whole text; the grammar looks at the significant ones only.

## Main definitions

* `Token`: kind, image and offset in the text
* `Token.isSignificant`: whether the grammar sees the token
* `Token.significant ts`: the significant tokens of a list
* `Token.sourceOf ts`: the text that the images make up
-/

namespace TermCalc

/-- The kinds of token. -/
inductive TokenKind where
  | constant
  | symbol
  | operator
  | whitespace
  | comment
deriving DecidableEq, Repr

/-- The name of a kind in constructor notation. -/
def TokenKind.name : TokenKind → String
  | .constant => "CONSTANT"
  | .symbol => "SYMBOL"
  | .operator => "OPERATOR"
  | .whitespace => "WHITESPACE"
  | .comment => "COMMENT"

/-- A lexeme: its kind, its characters and the offset of the first of them. Tokens that no text was
cut into may have any offset. -/
structure Token where
  kind : TokenKind
  image : String
  position : Int
deriving DecidableEq, Repr

namespace Token

/-- Whether the grammar sees the token. -/
def isSignificant (t : Token) : Bool :=
  t.kind != .whitespace && t.kind != .comment

/-- The significant tokens of a list. -/
def significant (ts : List Token) : List Token :=
  ts.filter isSignificant

/-- The text that the images of a list of tokens make up. -/
def sourceOf (ts : List Token) : String :=
  String.join (ts.map Token.image)

/-- The token in constructor notation. -/
def spell (t : Token) : String :=
  "Token(" ++ t.kind.name ++ ", " ++ Text.quoted t.image ++ ", " ++
    Text.signedText t.position ++ ")"

/-- Whether an operand is expected after `t`, if one was expected before it as `expected` says. A
blank or comment changes nothing; otherwise an operand is expected after every operator that does
not close a group. -/
def operandExpectedAfter (expected : Bool) (t : Token) : Bool :=
  if t.isSignificant then t.kind == .operator && t.image != ")" && t.image != "]" else expected

end Token

end TermCalc
