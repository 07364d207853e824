import TermCalc.Term.Basic

/-!
# Equivalent terms

When two terms count as the same. Constants are compared as numbers, so the two zeros are the same;
NaN is the same as itself, since a term that held it would otherwise never stop changing.

## Main definitions

* `Term.equivalent s t`: the comparison of two terms
* `Term.key t`: a list that two terms share exactly if they are equivalent
* `Term.countDistinct ts`: the number of different terms in a list
-/

namespace TermCalc

/-- Whether two numbers count as the same in terms. -/
def sameNumber (x y : Float) : Bool :=
  x == y || (x.isNaN && y.isNaN)

namespace Term

mutual

/-- Whether two terms have the same shape, the same names and the same numbers. -/
def equivalent : Term → Term → Bool
  | .const x, .const y => sameNumber x y
  | .sym m, .sym n => m == n
  | .app f as, .app g bs => as.length == bs.length && equivalent f g && equivalentAll as bs
  | .lam ps b, .lam qs c => ps.length == qs.length && equivalentAll ps qs && equivalent b c
  | _, _ => false

/-- Whether two lists have pairwise equivalent terms, as far as the shorter one goes. -/
def equivalentAll : List Term → List Term → Bool
  | s :: ss, t :: ts => equivalent s t && equivalentAll ss ts
  | _, _ => true

end

/-- An entry of a key. -/
inductive Mark where
  | number (value : Float)
  | name (name : String)
  | application (arity : Nat)
  | abstraction (arity : Nat)
deriving DecidableEq

/-- The number that stands for all numbers that count as the same as `x`. -/
def representative (x : Float) : Float :=
  if x == 0 then 0 else x

mutual

/-- The nodes of a term from the root down and from left to right, each with the number of its
arguments or parameters. -/
def key : Term → List Mark
  | .const x => [.number (representative x)]
  | .sym name => [.name name]
  | .app head args => .application args.length :: (head.key ++ keyAll args)
  | .lam params body => .abstraction params.length :: (keyAll params ++ body.key)

/-- The keys of a list of terms, one after the other. -/
def keyAll : List Term → List Mark
  | [] => []
  | t :: ts => t.key ++ keyAll ts

end

/-- The number of different terms in a list: of its different keys. -/
def countDistinct (ts : List Term) : Nat :=
  (ts.map key).eraseDups.length

example : countDistinct
    [.const 0.0, .const (-0.0), .sym "0", .const (0.0 / 0.0), .const (0.0 / 0.0)] = 3 := by
  decide +kernel

end Term

end TermCalc
