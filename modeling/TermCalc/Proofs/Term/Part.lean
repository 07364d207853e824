import TermCalc.Proofs.Term.Equivalence

/-!
# Parts of a term

The terms that occur in a term, at any depth and inside abstractions too.

## Main definitions

* `Term.Part s t`: `s` occurs in `t`

## Main results

* `part_app`: what occurs in the application of a symbol
* `Part.size_le`: a part is not larger than the whole
-/

namespace TermCalc.Term

/-- The term `s` occurs in a term: it is the term itself, or it occurs in one of its operands. -/
inductive Part (s : Term) : Term → Prop
  | self : Part s s
  | head {f args} : Part s f → Part s (.app f args)
  | arg {f args a} : a ∈ args → Part s a → Part s (.app f args)
  | param {params body p} : p ∈ params → Part s p → Part s (.lam params body)
  | body {params body} : Part s body → Part s (.lam params body)

variable {s : Term} {name : String} {args : List Term} {x : Float}

theorem part_const : Part s (.const x) ↔ s = .const x := by
  constructor
  · rintro (_ | _)
    rfl
  · rintro rfl
    exact .self

theorem part_sym : Part s (.sym name) ↔ s = .sym name := by
  constructor
  · rintro (_ | _)
    rfl
  · rintro rfl
    exact .self

/-- What occurs in the application of a symbol. -/
theorem part_app : Part s (.app (.sym name) args) ↔
    s = .app (.sym name) args ∨ s = .sym name ∨ ∃ a ∈ args, Part s a := by
  constructor
  · intro h
    cases h with
    | self => exact .inl rfl
    | head h => exact .inr (.inl (part_sym.1 h))
    | arg ha h => exact .inr (.inr ⟨_, ha, h⟩)
  · rintro (rfl | rfl | ⟨a, ha, h⟩)
    · exact .self
    · exact .head .self
    · exact .arg ha h

theorem Part.size_le {s t : Term} (h : Part s t) : s.size ≤ t.size := by
  induction h with
  | self => exact Nat.le_refl _
  | head _ ih =>
    rw [size]
    omega
  | arg ha _ ih =>
    have hle := size_le_sizeAll_of_mem ha
    rw [size]
    omega
  | param hp _ ih =>
    have hle := size_le_sizeAll_of_mem hp
    rw [size]
    omega
  | body _ ih =>
    rw [size]
    omega

end TermCalc.Term
