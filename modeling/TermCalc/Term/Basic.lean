/-!
# Terms

The terms of symbolic arithmetic. A term is both what a statement means and what it is rewritten
to. An operator is an application whose head is a symbol such as `$add`, the *tag* of the
application.

## Main definitions

* `Term`: constants, symbols, applications and abstractions
* `Term.tag?`: the tag of an application
* `Term.size`: the number of nodes
* `Term.WellFormed`: no symbol is nameless and no application without arguments
* `Term.symbol?`, `Term.application?`: the constructors that check this
-/

namespace TermCalc

/-- A term. Abstractions are reserved: no rule builds one or looks into one. -/
inductive Term where
  | const (value : Float)
  | sym (name : String)
  | app (head : Term) (args : List Term)
  | lam (params : List Term) (body : Term)
deriving Inhabited

namespace Term

/-- Induction over terms: to show a property of an application or abstraction it may be assumed of
every part. -/
@[elab_as_elim]
theorem induction {motive : Term → Prop} (const : ∀ x, motive (.const x))
    (sym : ∀ name, motive (.sym name))
    (app : ∀ head args, motive head → (∀ a ∈ args, motive a) → motive (.app head args))
    (lam : ∀ params body, (∀ p ∈ params, motive p) → motive body → motive (.lam params body))
    (t : Term) : motive t :=
  @Term.rec motive (fun ts => ∀ t ∈ ts, motive t) const sym app lam
    (fun _ h => absurd h List.not_mem_nil)
    (fun _ _ h hs _ ht => (List.mem_cons.1 ht).elim (fun e => e ▸ h) (hs _)) t

/-- The name at the head of an application, if a symbol stands there. -/
def tag? : Term → Option String
  | .app (.sym name) _ => some name
  | _ => none

/-- The symbol `tag` applied to one argument. -/
def unary (tag : String) (arg : Term) : Term :=
  .app (.sym tag) [arg]

/-- The symbol `tag` applied to two arguments. -/
def binary (tag : String) (left right : Term) : Term :=
  .app (.sym tag) [left, right]

/-! ## Size and well-formedness -/

mutual

/-- The number of nodes of a term. -/
def size : Term → Nat
  | .const _ => 1
  | .sym _ => 1
  | .app head args => 1 + head.size + sizeAll args
  | .lam params body => 1 + sizeAll params + body.size

/-- The number of nodes of a list of terms. -/
def sizeAll : List Term → Nat
  | [] => 0
  | t :: ts => t.size + sizeAll ts

end

mutual

/-- Whether every symbol has a name and every application an argument. -/
def wellFormed : Term → Bool
  | .const _ => true
  | .sym name => name != ""
  | .app head args => !args.isEmpty && head.wellFormed && wellFormedAll args
  | .lam params body => wellFormedAll params && body.wellFormed

/-- Whether all terms of a list are well formed. -/
def wellFormedAll : List Term → Bool
  | [] => true
  | t :: ts => t.wellFormed && wellFormedAll ts

end

/-- A term in which every symbol has a name and every application an argument. -/
def WellFormed (t : Term) : Prop :=
  t.wellFormed = true

instance (t : Term) : Decidable t.WellFormed :=
  inferInstanceAs (Decidable (t.wellFormed = true))

/-- Why a term cannot be built. -/
inductive BuildError where
  | namelessSymbol
  | noArguments
deriving DecidableEq, Repr

/-- The symbol of that name. -/
def symbol? (name : String) : Except BuildError Term :=
  if name == "" then .error .namelessSymbol else .ok (.sym name)

/-- The application of `head` to `args`. -/
def application? (head : Term) (args : List Term) : Except BuildError Term :=
  if args.isEmpty then .error .noArguments else .ok (.app head args)

/-! ## Constants -/

/-- Whether the term is a constant. -/
def isConst : Term → Bool
  | .const _ => true
  | _ => false

/-- Whether the term is the constant `x`; both zeros are the same and NaN is no constant at all. -/
def isNumber (x : Float) : Term → Bool
  | .const y => y == x
  | _ => false

end Term

end TermCalc
