import TermCalc.Proofs.Rule.Operation

/-!
# Contractions and maps of terms

An operation of two operands looks at them for what numbers they are and for whether they are
equivalent. A map of terms that leaves all this as it is therefore commutes with its contractions.

## Main definitions

* `Operation.Keeps f left right`: the map `f` leaves what an operation looks at as it is

## Main results

* `Operation.map_contract`: a map commutes with a contraction of operands of which it keeps all this
-/

namespace TermCalc.Operation

/-! ## Contractions of operands that are not both constants -/

section

variable {whole left right : Term} (h : (left.isConst && right.isConst) = false)

include h

theorem sum_eq : sum whole left right =
    if left.isNumber 0 then right else if right.isNumber 0 then left else whole := by
  cases left <;> cases right <;> first | rfl | simp [Term.isConst] at h

theorem difference_eq : difference whole left right =
    if left.isNumber 0 then .unary "$neg" right
    else if right.isNumber 0 then left
    else if left.equivalent right then .const 0
    else whole := by
  cases left <;> cases right <;> first | rfl | simp [Term.isConst] at h

theorem product_eq : product whole left right =
    if left.isNumber 0 || right.isNumber 0 then .const 0
    else if left.isNumber 1 then right
    else if right.isNumber 1 then left
    else if left.isNumber (-1) then .unary "$neg" right
    else if right.isNumber (-1) then .unary "$neg" left
    else whole := by
  cases left <;> cases right <;> first | rfl | simp [Term.isConst] at h

theorem quotient_eq : quotient whole left right =
    if left.isNumber 0 then .const 0
    else if right.isNumber 1 then left
    else if right.isNumber (-1) then .unary "$neg" left
    else whole := by
  cases left <;> cases right <;> first | rfl | simp [Term.isConst] at h

end

/-! ## Maps of terms -/

/-- The map leaves constants and negations as they are, and of two operands what numbers they are
and whether they are equivalent. -/
structure Keeps (f : Term → Term) (left right : Term) : Prop where
  const : ∀ x, f (.const x) = .const x
  negation : ∀ a, f (.unary "$neg" a) = .unary "$neg" (f a)
  isConst : ((f left).isConst && (f right).isConst) = (left.isConst && right.isConst)
  isNumber_left : ∀ x, (f left).isNumber x = left.isNumber x
  isNumber_right : ∀ x, (f right).isNumber x = right.isNumber x
  equivalent : (f left).equivalent (f right) = left.equivalent right

theorem operands_of_ne_negate {op : Operation} (hop : op ≠ .negate) : op.operands = 2 := by
  cases op <;> first | rfl | exact absurd rfl hop

/-- Mapping before or after a contraction is the same, unless it is one of a negation. -/
theorem map_contract {f : Term → Term} {op : Operation} {left right : Term} (hop : op ≠ .negate)
    (hf : Keeps f left right)
    (hwhole : f (.app (.sym op.tag) [left, right]) = .app (.sym op.tag) [f left, f right]) :
    f (op.contract [left, right]) = op.contract [f left, f right] := by
  by_cases hc : (left.isConst && right.isConst) = true
  · obtain ⟨hl, hr⟩ := Bool.and_eq_true_iff.1 hc
    cases left <;> cases right <;> simp only [Term.isConst, Bool.false_eq_true] at hl hr
    rw [hf.const, hf.const] at hwhole ⊢
    cases op <;> first | exact absurd rfl hop | exact hwhole | exact hf.const _
  · rw [Bool.not_eq_true] at hc
    have hc' : ((f left).isConst && (f right).isConst) = false := hf.isConst.trans hc
    cases op with
    | negate => exact absurd rfl hop
    | assign => exact hwhole
    | add =>
      simp only [contract, sum_eq hc, sum_eq hc', apply_ite f, hwhole, hf.isNumber_left,
        hf.isNumber_right]
    | subtract =>
      simp only [contract, difference_eq hc, difference_eq hc', apply_ite f, hwhole, hf.negation,
        hf.isNumber_left, hf.isNumber_right, hf.equivalent, hf.const]
    | multiply =>
      simp only [contract, product_eq hc, product_eq hc', apply_ite f, hwhole, hf.negation,
        hf.isNumber_left, hf.isNumber_right, hf.const]
    | divide =>
      simp only [contract, quotient_eq hc, quotient_eq hc', apply_ite f, hwhole, hf.negation,
        hf.isNumber_left, hf.isNumber_right, hf.const]

end TermCalc.Operation
