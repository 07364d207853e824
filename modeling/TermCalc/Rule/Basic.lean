import TermCalc.Rule.Operation
import TermCalc.Term.Printer

/-!
# Rewrite rules

A rule rewrites a term everywhere at once. A substitution replaces a symbol; an operation works on
the applications of its tag, innermost first. Neither looks into abstractions.

## Main definitions

* `Rule`: the two kinds of rule
* `Rule.rewrite r t`: the term that `r` makes of `t`, with the bindings made on the way
* `Rule.renames r name`: whether `r` rewrites the bare symbol `name`
* `Rule.builtin`: the rules that every session starts with
-/

namespace TermCalc

/-- A rewrite rule. An operation with an arity applies to that number of arguments only. -/
inductive Rule where
  | substitution (name : String) (replacement : Term)
  | operation (tag : String) (op : Operation) (arity : Option Int)

namespace Rule

/-! ## Rewriting a term -/

mutual

/-- The term with `replacement` in the place of every symbol `name` outside abstractions. -/
def substitute (name : String) (replacement : Term) : Term → Term
  | .sym n => if n = name then replacement else .sym n
  | .app head args => .app (substitute name replacement head) (substituteAll name replacement args)
  | t => t

/-- Substitution in each term of a list. -/
def substituteAll (name : String) (replacement : Term) : List Term → List Term
  | [] => []
  | t :: ts => substitute name replacement t :: substituteAll name replacement ts

end

theorem substituteAll_eq_map (name : String) (replacement : Term) (ts : List Term) :
    substituteAll name replacement ts = ts.map (substitute name replacement) := by
  induction ts with
  | nil => rfl
  | cons t ts ih => simp [substituteAll, ih]

/-- Whether an operation for `tag` and `arity` applies to `head` with `args`. -/
def applies (tag : String) (arity : Option Int) (head : Term) (args : List Term) : Bool :=
  (Term.app head args).tag? == some tag && arity.all (· == (args.length : Int))

mutual

/-- The operation on every application that it applies to, the head and the arguments of an
application before the application itself. -/
def operate (tag : String) (op : Operation) (arity : Option Int) : Term → Effect Term
  | .app head args => do
    let head ← operate tag op arity head
    let args ← operateAll tag op arity args
    if applies tag arity head args then op.perform (.app head args) args
    else pure (.app head args)
  | t => pure t

/-- The operation in each term of a list, from the left. -/
def operateAll (tag : String) (op : Operation) (arity : Option Int) :
    List Term → Effect (List Term)
  | [] => pure []
  | t :: ts => do
    let t ← operate tag op arity t
    let ts ← operateAll tag op arity ts
    pure (t :: ts)

end

/-- What a rule makes of a term. -/
def rewrite : Rule → Term → Effect Term
  | .substitution name replacement, t => pure (substitute name replacement t)
  | .operation tag op arity, t => operate tag op arity t

/-! ## How many bindings a rewriting makes -/

/-- Whether the rule is an operation. -/
def isOperation : Rule → Bool
  | .operation .. => true
  | .substitution .. => false

theorem length_bindings_perform_le (op : Operation) (whole : Term) (args : List Term) :
    (op.perform whole args).bindings.length ≤ 1 := by
  unfold Operation.perform
  split <;> simp [Effect.pure]

theorem length_bindings_andThen_le {α β : Type} {x : Effect α} {f : α → Effect β} {m n : Nat}
    (hx : x.bindings.length ≤ m) (hf : ∀ a, (f a).bindings.length ≤ n) :
    (x >>= f).bindings.length ≤ m + n := by
  show (x.andThen f).bindings.length ≤ m + n
  unfold Effect.andThen
  split
  · exact Nat.le_trans hx (Nat.le_add_right _ _)
  · next a _ =>
    have := hf a
    simp only [List.length_append]
    omega

mutual

/-- An operation makes at most one binding at each node. -/
theorem length_bindings_operate_le (tag : String) (op : Operation) (arity : Option Int) :
    (t : Term) → (operate tag op arity t).bindings.length ≤ t.size
  | .const _ => Nat.zero_le _
  | .sym _ => Nat.zero_le _
  | .lam _ _ => Nat.zero_le _
  | .app head args => by
    have h := length_bindings_operate_le tag op arity head
    have hs := length_bindings_operateAll_le tag op arity args
    have : (operate tag op arity (.app head args)).bindings.length ≤
        head.size + (Term.sizeAll args + 1) := by
      rw [operate]
      refine length_bindings_andThen_le h fun head' => ?_
      refine length_bindings_andThen_le hs fun args' => ?_
      split
      · exact length_bindings_perform_le _ _ _
      · exact Nat.zero_le _
    rw [Term.size]
    omega

/-- An operation makes at most one binding at each node of a list of terms. -/
theorem length_bindings_operateAll_le (tag : String) (op : Operation) (arity : Option Int) :
    (ts : List Term) → (operateAll tag op arity ts).bindings.length ≤ Term.sizeAll ts
  | [] => Nat.zero_le _
  | t :: ts => by
    have h := length_bindings_operate_le tag op arity t
    have hs := length_bindings_operateAll_le tag op arity ts
    rw [operateAll, Term.sizeAll]
    exact length_bindings_andThen_le h fun _ =>
      length_bindings_andThen_le (n := 0) hs fun _ => Nat.zero_le _

end

/-- A substitution binds nothing, and an operation binds no more names than the term has nodes. -/
theorem length_bindings_rewrite_le (r : Rule) (t : Term) :
    (r.rewrite t).bindings.length ≤ if r.isOperation then t.size else 0 := by
  cases r with
  | substitution name replacement => exact Nat.zero_le _
  | operation tag op arity => exact length_bindings_operate_le tag op arity t

/-! ## Substitutions by name -/

/-- Whether the rule rewrites the bare symbol `name`: it substitutes something else for it. -/
def renames (name : String) : Rule → Bool
  | .substitution n replacement => n == name && !Term.equivalent (.sym name) replacement
  | .operation .. => false

/-- The replacement, if the rule is a substitution for `name`. -/
def replacement? (name : String) : Rule → Option Term
  | .substitution n replacement => if n = name then some replacement else none
  | .operation .. => none

/-- The rule in constructor notation. -/
def spell : Rule → String
  | .substitution name replacement =>
    "SubstitutionRule(" ++ Text.quoted name ++ ", " ++ replacement.spell ++ ")"
  | .operation tag op _ => "OperationRule(" ++ Text.quoted tag ++ ", " ++ op.name ++ ")"

/-! ## The builtin rules -/

/-- The binary64 number nearest to the circle constant. -/
def piValue : Float :=
  Float.ofBits 0x400921FB54442D18

/-- The binary64 number nearest to the base of the natural logarithm. -/
def eValue : Float :=
  Float.ofBits 0x4005BF0A8B145769

/-- The rule of a builtin operation, for its own tag and number of operands. -/
def ofOperation (op : Operation) : Rule :=
  .operation op.tag op (some op.operands)

/-- The builtin rules: two constants, then the operations. -/
def builtin : List Rule :=
  [.substitution "pi" (.const piValue), .substitution "e" (.const eValue), ofOperation .assign,
    ofOperation .negate, ofOperation .add, ofOperation .subtract, ofOperation .multiply,
    ofOperation .divide]

end Rule

end TermCalc
