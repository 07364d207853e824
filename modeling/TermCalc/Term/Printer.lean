import TermCalc.Number.Layout
import TermCalc.Term.Basic
import TermCalc.Text.Quoted

/-!
# The text of a term

Terms are shown in the syntax of statements: the arithmetic operators between their operands and in
parentheses, every other application as a call. A second form spells out the constructors.

## Main definitions

* `Term.display t`: the term in the syntax of statements
* `Term.spell t`: the term in constructor notation
-/

namespace TermCalc.Term

/-- The sign between the operands of an operator. -/
def infixSign? (tag : String) : Option String :=
  if tag = "$add" then some "+"
  else if tag = "$sub" then some "-"
  else if tag = "$mul" then some "*"
  else if tag = "$div" then some "/"
  else if tag = "$mod" then some "%"
  else none

/-- An application of the symbol `tag`, or of the head shown as `head`, to arguments that are shown
as `args`. -/
def layoutCall (tag : Option String) (head : String) (args : List String) : String :=
  match tag, args with
  | some tag, [arg] =>
    if tag = "$neg" then "-" ++ arg else head ++ "(" ++ arg ++ ")"
  | some tag, [left, right] =>
    if tag = "$let" then left ++ " = " ++ right
    else match infixSign? tag with
      | some sign => "(" ++ left ++ " " ++ sign ++ " " ++ right ++ ")"
      | none => head ++ "(" ++ left ++ ", " ++ right ++ ")"
  | _, args => head ++ "(" ++ String.intercalate ", " args ++ ")"

mutual

/-- The term in the syntax of statements. -/
def display : Term → String
  | .const x => displayNumber x
  | .sym name => name
  | .app head args => layoutCall (app head args).tag? head.display (displayAll args)
  | .lam params body =>
    "(" ++ String.intercalate ", " (displayAll params) ++ ") -> " ++ body.display

/-- The terms of a list, each in the syntax of statements. -/
def displayAll : List Term → List String
  | [] => []
  | t :: ts => t.display :: displayAll ts

end

mutual

/-- The term in constructor notation. -/
def spell : Term → String
  | .const x => "Constant(" ++ literalNumber x ++ ")"
  | .sym name => "Symbol(" ++ Text.quoted name ++ ")"
  | .app head args =>
    "Application(" ++ head.spell ++ ", [" ++ String.intercalate ", " (spellAll args) ++ "])"
  | .lam params body =>
    "Abstraction([" ++ String.intercalate ", " (spellAll params) ++ "], " ++ body.spell ++ ")"

/-- The terms of a list, each in constructor notation. -/
def spellAll : List Term → List String
  | [] => []
  | t :: ts => t.spell :: spellAll ts

end

theorem displayAll_eq_map (ts : List Term) : displayAll ts = ts.map display := by
  induction ts with
  | nil => rfl
  | cons t ts ih => simp [displayAll, ih]

example : display (binary "$add" (unary "$neg" (.sym "x")) (.app (.sym "f") [.sym "y", .sym "z"])) =
    "(-x + f(y, z))" := by
  decide

end TermCalc.Term
