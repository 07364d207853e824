import TermCalc.Term.Parser
import TermCalc.Token.Lexer

/-!
# Reading a term from text

## Main definitions

* `ReadError`: why a text is no statement
* `Term.read? source`: the term that a text is read as
-/

namespace TermCalc

/-- Why a text is no statement. -/
inductive ReadError where
  /-- No token starts at that offset. -/
  | noToken (source : String) (position : Nat)
  /-- The tokens are no statement. -/
  | noStatement (tokens : List Token) (error : ParseError)
deriving DecidableEq, Repr

/-- The term that a list of tokens is read as. -/
def Term.parse? (tokens : List Token) : Except ReadError Term :=
  (Term.ofTokens? tokens).mapError (.noStatement tokens)

/-- The tokens of a text. -/
def Token.read? (source : String) : Except ReadError (List Token) :=
  (Token.ofSource? source).mapError (.noToken source)

/-- The term that a text is read as. -/
def Term.read? (source : String) : Except ReadError Term := do
  let tokens ← Token.read? source
  Term.parse? tokens

end TermCalc
