import TermCalc.Term.Equivalent

/-!
# Builtin operations

What the arithmetic operators and the assignment do to an application of theirs, once its operands
have been rewritten. An operation gives back the application itself where nothing applies.

## Main definitions

* `Operation`: assignment, negation and the four arithmetic operations
* `Effect`: a result together with the bindings made on the way to it
* `Operation.perform`: an operation on an application
-/

namespace TermCalc

/-- A name and the term it is bound to. -/
structure Binding where
  name : String
  definition : Term

/-- An operation met another number of operands than it works on. -/
structure OperandMismatch where
  expected : Nat
  found : Nat
deriving DecidableEq, Repr

/-- What a rewriting gives: the bindings that were made, in order, and a result or the operand
mismatch that ended it. -/
structure Effect (α : Type) where
  bindings : List Binding
  result : Except OperandMismatch α

namespace Effect

variable {α β : Type}

/-- A result without any binding. -/
def pure (a : α) : Effect α :=
  ⟨[], .ok a⟩

/-- One effect after the other; a mismatch in the first prevents the second. -/
def andThen (x : Effect α) (f : α → Effect β) : Effect β :=
  match x.result with
  | .error e => ⟨x.bindings, .error e⟩
  | .ok a =>
    let y := f a
    ⟨x.bindings ++ y.bindings, y.result⟩

instance : Monad Effect where
  pure := Effect.pure
  bind := andThen

end Effect

/-! ## The operations -/

/-- The builtin operations. -/
inductive Operation where
  | assign
  | negate
  | add
  | subtract
  | multiply
  | divide
deriving DecidableEq, Repr

namespace Operation

/-- The short name of an operation. -/
def name : Operation → String
  | .assign => "let"
  | .negate => "neg"
  | .add => "add"
  | .subtract => "sub"
  | .multiply => "mul"
  | .divide => "div"

/-- The number of operands that an operation works on. -/
def operands : Operation → Nat
  | .negate => 1
  | _ => 2

/-- The tag of the applications that an operation is for. -/
def tag : Operation → String
  | .assign => "$let"
  | .negate => "$neg"
  | .add => "$add"
  | .subtract => "$sub"
  | .multiply => "$mul"
  | .divide => "$div"

/-! ## What the operations make of their operands -/

/-- The negation of `operand`: a constant is negated, and a negation gives up its operand. -/
def negation (whole operand : Term) : Term :=
  match operand with
  | .const x => .const (-x)
  | .app (.sym tag) (first :: _) => if tag = "$neg" then first else whole
  | _ => whole

/-- The sum of two operands: constants are added, and a zero gives way to the other operand. -/
def sum (whole left right : Term) : Term :=
  match left, right with
  | .const x, .const y => .const (x + y)
  | _, _ =>
    if left.isNumber 0 then right
    else if right.isNumber 0 then left
    else whole

/-- The difference of two operands: constants are subtracted, zeros drop out, and equivalent
operands cancel. -/
def difference (whole left right : Term) : Term :=
  match left, right with
  | .const x, .const y => .const (x - y)
  | _, _ =>
    if left.isNumber 0 then .unary "$neg" right
    else if right.isNumber 0 then left
    else if left.equivalent right then .const 0
    else whole

/-- The product of two operands: constants are multiplied, a zero takes the other operand with it,
and one and minus one drop out. -/
def product (whole left right : Term) : Term :=
  match left, right with
  | .const x, .const y => .const (x * y)
  | _, _ =>
    if left.isNumber 0 || right.isNumber 0 then .const 0
    else if left.isNumber 1 then right
    else if right.isNumber 1 then left
    else if left.isNumber (-1) then .unary "$neg" right
    else if right.isNumber (-1) then .unary "$neg" left
    else whole

/-- The quotient of two numbers. A number other than zero divided by zero is an infinity, of the
sign that the two signs give, and zero divided by zero is NaN. -/
def quotientOf (x y : Float) : Float :=
  x / y

/-- The quotient of two operands: constants are divided, a zero on the left stays, and one and minus
one on the right drop out. -/
def quotient (whole left right : Term) : Term :=
  match left, right with
  | .const x, .const y => .const (quotientOf x y)
  | _, _ =>
    if left.isNumber 0 then .const 0
    else if right.isNumber 1 then left
    else if right.isNumber (-1) then .unary "$neg" left
    else whole

/-- An operation on the application `whole` with arguments `args`. An assignment to a symbol binds
it and leaves the application as it is. -/
def perform (op : Operation) (whole : Term) (args : List Term) : Effect Term :=
  match op, args with
  | .negate, [operand] => .pure (negation whole operand)
  | .assign, [.sym name, definition] => ⟨[⟨name, definition⟩], .ok whole⟩
  | .assign, [_, _] => .pure whole
  | .add, [left, right] => .pure (sum whole left right)
  | .subtract, [left, right] => .pure (difference whole left right)
  | .multiply, [left, right] => .pure (product whole left right)
  | .divide, [left, right] => .pure (quotient whole left right)
  | op, args => ⟨[], .error ⟨op.operands, args.length⟩⟩

end Operation

end TermCalc
