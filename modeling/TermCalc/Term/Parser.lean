import TermCalc.Number.Literal
import TermCalc.Term.Basic
import TermCalc.Token

/-!
# Reading a term from tokens

The grammar of statements, read by recursive descent over the significant tokens:

```
statement  ::= symbol "=" expression | expression
expression ::= term (("+" | "-") term)*
term       ::= factor (("*" | "/" | "%") factor)*
factor     ::= "-" factor | "(" expression ")" | "[" arguments "]" | constant
             | symbol | symbol "(" arguments ")"
arguments  ::= expression ("," expression)*
```

A statement whose second token is `=` is an assignment. Operators and brackets are recognised by
their images alone, constants and symbols by their kinds.

Each function reads from the front of a list of tokens and returns what is left, which is shorter;
the lists bound the recursion.

## Main definitions

* `ParseError`: why tokens are no statement
* `Parser.statement`, `Parser.expression`, `Parser.factor`: the grammar
* `Term.ofTokens? ts`: the term that the significant tokens of a list are read as
-/

namespace TermCalc

/-- What is wrong at the token where reading stopped. -/
inductive Problem where
  | expected (image : String)
  | expectedSymbol
  | unexpectedEnd
  | unexpectedToken
  | trailingInput
deriving DecidableEq, Repr

/-- Why tokens are no statement. -/
inductive ParseError where
  /-- The grammar stops at the significant token of that index. -/
  | refused (problem : Problem) (index : Nat)
  /-- A constant has an image that denotes no number. -/
  | notANumber (image : String)
  /-- A symbol has an empty image. -/
  | namelessSymbol
deriving DecidableEq, Repr

namespace Parser

/-! ## What reading gives -/

/-- What reading from the front of `ts` gives: a value and the tokens left, fewer than before. -/
structure Read (α : Type) (ts : List Token) where
  value : α
  rest : List Token
  shorter : rest.length < ts.length

/-- What reading on in `ts` gives: a value and the tokens left, at most as many as before. -/
structure ReadOn (α : Type) (ts : List Token) where
  value : α
  rest : List Token
  notLonger : rest.length ≤ ts.length

/-- Why reading fails. A refusal records the tokens that were left. -/
inductive Failure where
  | refused (problem : Problem) (rest : List Token)
  | notANumber (image : String)
  | namelessSymbol

/-! ## Single tokens -/

/-- The tag of an operator between terms. -/
def sumTag? (t : Token) : Option String :=
  if t.image = "+" then some "$add" else if t.image = "-" then some "$sub" else none

/-- The tag of an operator between factors. -/
def productTag? (t : Token) : Option String :=
  if t.image = "*" then some "$mul"
  else if t.image = "/" then some "$div"
  else if t.image = "%" then some "$mod"
  else none

/-- Reads the closing bracket `image`. -/
def close (image : String) (ts : List Token) : Except Failure (Read Unit ts) :=
  match ts with
  | t :: rest =>
    if t.image = image then .ok ⟨(), rest, Nat.lt_succ_self _⟩
    else .error (.refused (.expected image) (t :: rest))
  | [] => .error (.refused (.expected image) [])

/-- Reads a symbol. -/
def symbol (ts : List Token) : Except Failure (Read Term ts) :=
  match ts with
  | t :: rest =>
    if t.kind ≠ .symbol then .error (.refused .expectedSymbol (t :: rest))
    else if t.image = "" then .error .namelessSymbol
    else .ok ⟨.sym t.image, rest, Nat.lt_succ_self _⟩
  | [] => .error (.refused .expectedSymbol [])

/-- Reads a constant of the given image, the tokens after which are `rest`. -/
def constant (t : Token) (rest : List Token) : Except Failure (Read Term (t :: rest)) :=
  match number? t.image with
  | some x => .ok ⟨.const x, rest, Nat.lt_succ_self _⟩
  | none => .error (.notANumber t.image)

/-! ## Expressions -/

mutual

/-- Reads terms with `+` and `-` between them. -/
def expression (ts : List Token) : Except Failure (Read Term ts) := do
  let first ← term ts
  let all ← sums first.value first.rest
  .ok ⟨all.value, all.rest, Nat.lt_of_le_of_lt all.notLonger first.shorter⟩
termination_by 4 * ts.length + 2
decreasing_by
  · omega
  · have := first.shorter; omega

/-- Reads on after the expression `left`: an operator and a term, as often as possible. -/
def sums (left : Term) (ts : List Token) : Except Failure (ReadOn Term ts) :=
  match ts with
  | [] => .ok ⟨left, [], Nat.le_refl _⟩
  | t :: rest =>
    match sumTag? t with
    | none => .ok ⟨left, t :: rest, Nat.le_refl _⟩
    | some tag => do
      let right ← term rest
      let all ← sums (.binary tag left right.value) right.rest
      .ok ⟨all.value, all.rest,
        Nat.le_trans all.notLonger (Nat.le_trans (Nat.le_of_lt right.shorter) (Nat.le_succ _))⟩
termination_by 4 * ts.length
decreasing_by
  · simp only [List.length_cons]; omega
  · have := right.shorter; simp only [List.length_cons]; omega

/-- Reads factors with `*`, `/` and `%` between them. -/
def term (ts : List Token) : Except Failure (Read Term ts) := do
  let first ← factor ts
  let all ← products first.value first.rest
  .ok ⟨all.value, all.rest, Nat.lt_of_le_of_lt all.notLonger first.shorter⟩
termination_by 4 * ts.length + 1
decreasing_by
  · omega
  · have := first.shorter; omega

/-- Reads on after the term `left`: an operator and a factor, as often as possible. -/
def products (left : Term) (ts : List Token) : Except Failure (ReadOn Term ts) :=
  match ts with
  | [] => .ok ⟨left, [], Nat.le_refl _⟩
  | t :: rest =>
    match productTag? t with
    | none => .ok ⟨left, t :: rest, Nat.le_refl _⟩
    | some tag => do
      let right ← factor rest
      let all ← products (.binary tag left right.value) right.rest
      .ok ⟨all.value, all.rest,
        Nat.le_trans all.notLonger (Nat.le_trans (Nat.le_of_lt right.shorter) (Nat.le_succ _))⟩
termination_by 4 * ts.length
decreasing_by
  · simp only [List.length_cons]; omega
  · have := right.shorter; simp only [List.length_cons]; omega

/-- Reads a factor. -/
def factor (ts : List Token) : Except Failure (Read Term ts) :=
  match ts with
  | [] => .error (.refused .unexpectedEnd [])
  | t :: rest =>
    if t.image = "-" then do
      let operand ← factor rest
      .ok ⟨.unary "$neg" operand.value, operand.rest,
        Nat.lt_trans operand.shorter (Nat.lt_succ_self _)⟩
    else if t.image = "(" then do
      let inner ← expression rest
      let closed ← close ")" inner.rest
      .ok ⟨inner.value, closed.rest,
        Nat.lt_trans closed.shorter (Nat.lt_trans inner.shorter (Nat.lt_succ_self _))⟩
    else if t.image = "[" then do
      let args ← arguments "]" rest
      .ok ⟨.app (.sym "$vec") args.value, args.rest,
        Nat.lt_trans args.shorter (Nat.lt_succ_self _)⟩
    else if t.kind = .constant then constant t rest
    else if t.kind = .symbol then
      if t.image = "" then .error .namelessSymbol
      else match rest with
        | [] => .ok ⟨.sym t.image, [], Nat.lt_succ_self _⟩
        | next :: rest =>
          if next.image = "(" then do
            let args ← arguments ")" rest
            .ok ⟨.app (.sym t.image) args.value, args.rest,
              Nat.lt_trans args.shorter (Nat.lt_succ_of_lt (Nat.lt_succ_self _))⟩
          else .ok ⟨.sym t.image, next :: rest, Nat.lt_succ_self _⟩
    else .error (.refused .unexpectedToken (t :: rest))
termination_by 4 * ts.length
decreasing_by
  all_goals simp only [List.length_cons]; omega

/-- Reads expressions with commas between them, up to and including the bracket `closer`. -/
def arguments (closer : String) (ts : List Token) : Except Failure (Read (List Term) ts) := do
  let first ← expression ts
  let others ← moreArguments closer first.rest
  .ok ⟨first.value :: others.value, others.rest, Nat.lt_trans others.shorter first.shorter⟩
termination_by 4 * ts.length + 3
decreasing_by
  · omega
  · have := first.shorter; omega

/-- Reads a comma and an expression as often as possible, then the bracket `closer`. -/
def moreArguments (closer : String) (ts : List Token) :
    Except Failure (Read (List Term) ts) :=
  match ts with
  | [] => .error (.refused (.expected closer) [])
  | t :: rest =>
    if t.image = "," then do
      let next ← expression rest
      let others ← moreArguments closer next.rest
      .ok ⟨next.value :: others.value, others.rest,
        Nat.lt_trans others.shorter (Nat.lt_trans next.shorter (Nat.lt_succ_self _))⟩
    else do
      let closed ← close closer (t :: rest)
      .ok ⟨[], closed.rest, closed.shorter⟩
termination_by 4 * ts.length
decreasing_by
  · simp only [List.length_cons]; omega
  · have := next.shorter; simp only [List.length_cons]; omega

end

/-! ## Statements -/

/-- Whether `=` is the second token. -/
def isAssignment : List Token → Bool
  | _ :: t :: _ => t.image == "="
  | _ => false

/-- Reads a statement. -/
def statement (ts : List Token) : Except Failure (Read Term ts) :=
  if isAssignment ts then do
    let name ← symbol ts
    let sign ← close "=" name.rest
    let definition ← expression sign.rest
    .ok ⟨.binary "$let" name.value definition.value, definition.rest,
      Nat.lt_trans definition.shorter (Nat.lt_trans sign.shorter name.shorter)⟩
  else expression ts

/-- Reads a statement that takes up all tokens. -/
def whole (ts : List Token) : Except Failure Term := do
  let read ← statement ts
  if read.rest.isEmpty then .ok read.value else .error (.refused .trailingInput read.rest)

end Parser

/-- The term that significant tokens are read as. -/
def Term.ofSignificant? (ts : List Token) : Except ParseError Term :=
  match Parser.whole ts with
  | .ok t => .ok t
  | .error (.refused problem rest) => .error (.refused problem (ts.length - rest.length))
  | .error (.notANumber image) => .error (.notANumber image)
  | .error .namelessSymbol => .error .namelessSymbol

/-- The term that a list of tokens is read as; blanks and comments are skipped. -/
def Term.ofTokens? (ts : List Token) : Except ParseError Term :=
  Term.ofSignificant? (Token.significant ts)

end TermCalc
