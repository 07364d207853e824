import TermCalc.Rule.Basic

/-!
# Rule tables

The rules of a session in order of priority: an earlier rule shadows the later ones. A name that is
bound again keeps the place of its first binding.

## Main definitions

* `Table`: an ordered list of rules
* `Table.bind`, `Table.bindAll`: binding names
* `Table.protects name`: whether an assignment to `name` can never bind
* `Table.lookup? name`: the term bound to `name`

## Main results

* `Table.operationMask_bindAll`: binding moves no operation and only adds substitutions at the end
-/

namespace TermCalc

/-- An ordered list of rules. -/
structure Table where
  rules : List Rule

namespace Table

/-- The table that a session starts with. -/
def default : Table :=
  ⟨Rule.builtin⟩

/-! ## Binding names -/

/-- The place of the first rule that rewrites the bare symbol `name`. -/
def slot? (t : Table) (name : String) : Option Nat :=
  t.rules.findIdx? (Rule.renames name)

/-- Binds a name: in the place of the first rule that rewrites it, or at the end. -/
def bind (t : Table) (b : Binding) : Table :=
  let rule := Rule.substitution b.name b.definition
  match t.slot? b.name with
  | some i => ⟨t.rules.set i rule⟩
  | none => ⟨t.rules ++ [rule]⟩

/-- Binds names one after the other. -/
def bindAll (t : Table) (bs : List Binding) : Table :=
  bs.foldl bind t

/-- Binds a name, which must not be empty. -/
def bind? (t : Table) (name : String) (definition : Term) : Except Term.BuildError Table := do
  let _ ← Term.symbol? name
  .ok (t.bind ⟨name, definition⟩)

/-! ## Looking names up -/

/-- Whether one of the rules ahead of the first operation for `$let` rewrites the bare symbol. -/
def protectsIn (name : String) : List Rule → Bool
  | [] => false
  | .operation tag _ _ :: rules => if tag = "$let" then false else protectsIn name rules
  | rule :: rules => rule.renames name || protectsIn name rules

/-- Whether a rule ahead of the assignment rewrites `name`, so that an assignment to it never
binds. -/
def protects (t : Table) (name : String) : Bool :=
  protectsIn name t.rules

/-- Whether a name, which must not be empty, is protected. -/
def protects? (t : Table) (name : String) : Except Term.BuildError Bool := do
  let _ ← Term.symbol? name
  .ok (t.protects name)

/-- The term that the first substitution for `name` puts in its place. -/
def lookup? (t : Table) (name : String) : Option Term :=
  t.rules.findSome? (Rule.replacement? name)

/-- The table with a rule added at the end. -/
def append (t : Table) (rule : Rule) : Table :=
  ⟨t.rules ++ [rule]⟩

/-- The table in constructor notation. -/
def spell (t : Table) : String :=
  "RuleTable([" ++ String.intercalate ", " (t.rules.map Rule.spell) ++ "])"

/-! ## Binding leaves the operations where they are -/

/-- Which places of the table hold operations. -/
def operationMask (t : Table) : List Bool :=
  t.rules.map Rule.isOperation

theorem operationMask_bind (t : Table) (b : Binding) :
    ∃ n, (t.bind b).operationMask = t.operationMask ++ List.replicate n false := by
  unfold bind operationMask
  cases h : t.slot? b.name with
  | none => exact ⟨1, by simp [Rule.isOperation]⟩
  | some i =>
    refine ⟨0, ?_⟩
    obtain ⟨hi, hr, _⟩ := List.findIdx?_eq_some_iff_getElem.1 h
    -- an operation rewrites no bare symbol, so the rule that gives way is a substitution
    have hrule : t.rules[i].isOperation = false := by
      cases hrule : t.rules[i] with
      | substitution name replacement => rfl
      | operation tag op arity => simp [hrule, Rule.renames] at hr
    simp only [List.replicate_zero, List.append_nil, List.map_set]
    apply List.ext_getElem (by simp)
    intro j hj hj'
    rw [List.getElem_set]
    split
    · next hij => subst hij; rw [List.getElem_map, hrule]; rfl
    · rfl

theorem operationMask_bindAll (t : Table) (bs : List Binding) :
    ∃ n, (t.bindAll bs).operationMask = t.operationMask ++ List.replicate n false := by
  induction bs generalizing t with
  | nil => exact ⟨0, by simp [bindAll]⟩
  | cons b bs ih =>
    obtain ⟨m, hm⟩ := operationMask_bind t b
    obtain ⟨n, hn⟩ := ih (t.bind b)
    exact ⟨m + n, by rw [bindAll, List.foldl_cons]; simpa [bindAll, hm, List.append_assoc] using hn⟩

end Table

end TermCalc
