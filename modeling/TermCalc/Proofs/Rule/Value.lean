import TermCalc.Proofs.Rule.Growth
import TermCalc.Proofs.Term.Value

/-!
# Rules keep the value of a term

The builtin operations compute on constants as binary64 arithmetic does, and where they take an
operand out or drop one, an identity of that arithmetic stands behind it. A substitution puts the
number of a symbol in its place. So no rule changes the value of a term that has one; only the sign
of a zero may be another.

## Main results

* `sameValue_contract`: a contraction keeps the value of its application
* `sameValue_everywhere`: an operation keeps the value of a term
* `sameValue_substitute`: a substitution of its number for a symbol keeps the value of a term
-/

namespace TermCalc

open Binary64

variable {env : String → Option Float} {a b : Term} {x y z c : Float}

namespace Operation

theorem tag_injective {op op' : Operation} (h : op.tag = op'.tag) : op = op' := by
  have hop := ofTag?_eq_some_iff.2 h
  rw [ofTag?_eq_some_iff.2 rfl, Option.some.injEq] at hop
  exact hop.symm

end Operation

namespace Term

theorem value?_const (hx : x.isFinite = true) : (const x).value? env = some x :=
  value?_const_eq_some_iff.2 ⟨rfl, hx⟩

theorem value?_neg (ha : a.value? env = some x) : (unary "$neg" a).value? env = some (-x) :=
  value?_app_eq_some_iff.2 ⟨.negate, [x], rfl, .cons ha .nil, .negate x,
    isFinite_neg (isFinite_of_value? ha)⟩

/-- A constant that is found to be some number has an equal value. -/
theorem beq_of_isNumber (h : a.isNumber c = true) (ha : a.value? env = some x) :
    (x == c) = true := by
  obtain ⟨y, rfl⟩ := Operation.exists_const_of_isNumber h
  obtain ⟨rfl, -⟩ := value?_const_eq_some_iff.1 ha
  exact h

theorem isZero_of_isNumber (h : a.isNumber 0 = true) (ha : a.value? env = some x) : IsZero x :=
  beq_zero_iff.1 (beq_of_isNumber h ha)

theorem eq_one_of_isNumber (h : a.isNumber 1 = true) (ha : a.value? env = some x) : x = 1 :=
  eq_of_beq_of_not_isZero (beq_of_isNumber h ha) not_isZero_one

theorem eq_neg_one_of_isNumber (h : a.isNumber (-1) = true) (ha : a.value? env = some x) :
    x = -1 :=
  eq_of_beq_of_not_isZero (beq_of_isNumber h ha) not_isZero_neg_one

/-- A constant zero has an equal value if the number is a zero. -/
theorem exists_value?_zero (hz : IsZero z) :
    ∃ w, (const 0).value? env = some w ∧ (z == w) = true :=
  ⟨0, value?_const isZero_zero.isFinite, beq_zero_iff.2 hz⟩

theorem exists_const_of_isConst_and (h : (a.isConst && b.isConst) = true)
    (ha : a.value? env = some x) (hb : b.value? env = some y) : a = const x ∧ b = const y := by
  obtain ⟨hca, hcb⟩ := Bool.and_eq_true_iff.1 h
  cases a <;> cases b <;> simp only [isConst, Bool.false_eq_true] at hca hcb
  rw [(value?_const_eq_some_iff.1 ha).1, (value?_const_eq_some_iff.1 hb).1]
  exact ⟨rfl, rfl⟩

end Term

namespace Operation

/-! ## Contractions -/

section Contractions

variable {whole : Term} (ha : a.value? env = some x) (hb : b.value? env = some y)

include ha in
theorem exists_value?_negation (hwhole : whole.value? env = some (-x)) :
    ∃ w, (negation whole a).value? env = some w ∧ (-x == w) = true := by
  have hx := isFinite_neg (Term.isFinite_of_value? ha)
  unfold negation
  split
  · obtain ⟨rfl, -⟩ := Term.value?_const_eq_some_iff.1 ha
    exact ⟨_, Term.value?_const hx, beq_refl_of_isFinite hx⟩
  · split
    · next htag =>
      obtain ⟨op, xs, hhead, hxs, hcompute, -⟩ := Term.value?_app_eq_some_iff.1 ha
      obtain rfl : op = .negate := tag_injective (by rw [← Term.sym.inj hhead, htag]; rfl)
      cases hcompute with
      | negate w =>
        cases hxs with
        | cons hfirst _ =>
          refine ⟨w, hfirst, ?_⟩
          rw [neg_neg] at hx ⊢
          exact beq_refl_of_isFinite hx
    · exact ⟨_, hwhole, beq_refl_of_isFinite hx⟩
  · exact ⟨_, hwhole, beq_refl_of_isFinite hx⟩

include ha hb

theorem exists_value?_sum (hwhole : whole.value? env = some (x + y)) :
    ∃ w, (sum whole a b).value? env = some w ∧ (x + y == w) = true := by
  have hx := Term.isFinite_of_value? ha
  have hy := Term.isFinite_of_value? hb
  have hz := Term.isFinite_of_value? hwhole
  by_cases hc : (a.isConst && b.isConst) = true
  · obtain ⟨rfl, rfl⟩ := Term.exists_const_of_isConst_and hc ha hb
    exact ⟨_, Term.value?_const hz, beq_refl_of_isFinite hz⟩
  · rw [sum_eq (by simpa using hc)]
    split_ifs with hl hr
    · exact ⟨y, hb, zero_add_beq (Term.isZero_of_isNumber hl ha) hy⟩
    · exact ⟨x, ha, add_zero_beq hx (Term.isZero_of_isNumber hr hb)⟩
    · exact ⟨_, hwhole, beq_refl_of_isFinite hz⟩

theorem exists_value?_difference (hwhole : whole.value? env = some (x - y)) :
    ∃ w, (difference whole a b).value? env = some w ∧ (x - y == w) = true := by
  have hx := Term.isFinite_of_value? ha
  have hy := Term.isFinite_of_value? hb
  have hz := Term.isFinite_of_value? hwhole
  by_cases hc : (a.isConst && b.isConst) = true
  · obtain ⟨rfl, rfl⟩ := Term.exists_const_of_isConst_and hc ha hb
    exact ⟨_, Term.value?_const hz, beq_refl_of_isFinite hz⟩
  · rw [difference_eq (by simpa using hc)]
    split_ifs with hl hr heq
    · exact ⟨-y, Term.value?_neg hb, zero_sub_beq (Term.isZero_of_isNumber hl ha) hy⟩
    · exact ⟨x, ha, sub_zero_beq hx (Term.isZero_of_isNumber hr hb)⟩
    · apply Term.exists_value?_zero
      obtain ⟨w, hw, hxw⟩ := Term.sameValue_of_equivalent heq x ha
      obtain rfl : w = y := Option.some.inj (hw.symm.trans hb)
      rcases (beq_iff_of_isFinite hx).1 hxw with rfl | ⟨hzx, hzy⟩
      · exact isZero_sub_self hx
      · exact hzx.sub hzy
    · exact ⟨_, hwhole, beq_refl_of_isFinite hz⟩

theorem exists_value?_product (hwhole : whole.value? env = some (x * y)) :
    ∃ w, (product whole a b).value? env = some w ∧ (x * y == w) = true := by
  have hx := Term.isFinite_of_value? ha
  have hy := Term.isFinite_of_value? hb
  have hz := Term.isFinite_of_value? hwhole
  by_cases hc : (a.isConst && b.isConst) = true
  · obtain ⟨rfl, rfl⟩ := Term.exists_const_of_isConst_and hc ha hb
    exact ⟨_, Term.value?_const hz, beq_refl_of_isFinite hz⟩
  · rw [product_eq (by simpa using hc)]
    split_ifs with h0 hl hr hln hrn
    · apply Term.exists_value?_zero
      rcases Bool.or_eq_true_iff.1 h0 with h0 | h0
      · exact isZero_zero_mul (Term.isZero_of_isNumber h0 ha) hy
      · exact isZero_mul_zero hx (Term.isZero_of_isNumber h0 hb)
    · obtain rfl := Term.eq_one_of_isNumber hl ha
      exact ⟨y, hb, by rw [mul_comm]; exact mul_one_beq hy⟩
    · obtain rfl := Term.eq_one_of_isNumber hr hb
      exact ⟨x, ha, mul_one_beq hx⟩
    · obtain rfl := Term.eq_neg_one_of_isNumber hln ha
      exact ⟨-y, Term.value?_neg hb, by rw [mul_comm]; exact mul_neg_one_beq hy⟩
    · obtain rfl := Term.eq_neg_one_of_isNumber hrn hb
      exact ⟨-x, Term.value?_neg ha, mul_neg_one_beq hx⟩
    · exact ⟨_, hwhole, beq_refl_of_isFinite hz⟩

theorem exists_value?_quotient (hwhole : whole.value? env = some (x / y)) :
    ∃ w, (quotient whole a b).value? env = some w ∧ (x / y == w) = true := by
  have hx := Term.isFinite_of_value? ha
  have hy := Term.isFinite_of_value? hb
  have hz := Term.isFinite_of_value? hwhole
  by_cases hc : (a.isConst && b.isConst) = true
  · obtain ⟨rfl, rfl⟩ := Term.exists_const_of_isConst_and hc ha hb
    exact ⟨_, Term.value?_const hz, beq_refl_of_isFinite hz⟩
  · rw [quotient_eq (by simpa using hc)]
    split_ifs with hl hr hrn
    · apply Term.exists_value?_zero
      exact isZero_zero_div (Term.isZero_of_isNumber hl ha) hy (not_isZero_of_isFinite_div hx hz)
    · obtain rfl := Term.eq_one_of_isNumber hr hb
      exact ⟨x, ha, div_one_beq hx⟩
    · obtain rfl := Term.eq_neg_one_of_isNumber hrn hb
      exact ⟨-x, Term.value?_neg ha, div_neg_one_beq hx⟩
    · exact ⟨_, hwhole, beq_refl_of_isFinite hz⟩

end Contractions

/-- A contraction keeps the value of the application. -/
theorem sameValue_contract (op : Operation) (args : List Term) :
    Term.SameValue env (.app (.sym op.tag) args) (op.contract args) := by
  intro z hz
  obtain ⟨op', xs, hhead, hxs, hcompute, -⟩ := Term.value?_app_eq_some_iff.1 hz
  obtain rfl : op = op' := tag_injective (Term.sym.inj hhead)
  cases hcompute with
  | negate x =>
    obtain _ | ⟨ha, _ | _⟩ := hxs
    exact exists_value?_negation ha hz
  | add x y =>
    obtain _ | ⟨ha, _ | ⟨hb, _ | _⟩⟩ := hxs
    exact exists_value?_sum ha hb hz
  | subtract x y =>
    obtain _ | ⟨ha, _ | ⟨hb, _ | _⟩⟩ := hxs
    exact exists_value?_difference ha hb hz
  | multiply x y =>
    obtain _ | ⟨ha, _ | ⟨hb, _ | _⟩⟩ := hxs
    exact exists_value?_product ha hb hz
  | divide x y =>
    obtain _ | ⟨ha, _ | ⟨hb, _ | _⟩⟩ := hxs
    exact exists_value?_quotient ha hb hz

theorem sameValue_close (op : Operation) (head : Term) (args : List Term) :
    Term.SameValue env (.app head args) (op.close head args) := by
  by_cases h : head = .sym op.tag ∧ args.length = op.operands
  · obtain ⟨rfl, hlength⟩ := h
    rw [close_of_applies hlength]
    exact sameValue_contract op args
  · rw [close_of_not_applies h]
    exact .refl _

/-- An operation keeps the value of a term. -/
theorem sameValue_everywhere (op : Operation) (t : Term) :
    Term.SameValue env t (op.everywhere t) := by
  induction t using Term.induction with
  | const x => exact .refl _
  | sym name => exact .refl _
  | app head args _ ha =>
    have hargs : List.Forall₂ (Term.SameValue env) args (args.map op.everywhere) :=
      List.forall₂_map_right_iff.2 (List.forall₂_same.2 ha)
    intro z hz
    obtain ⟨op', xs, rfl, -⟩ := Term.value?_app_eq_some_iff.1 hz
    rw [everywhere_app]
    exact (Term.SameValue.app hargs).trans (sameValue_close op _ _) z hz
  | lam params body => exact .refl _

end Operation

/-- The substitution of its number for a symbol keeps the value of a term. -/
theorem Rule.sameValue_substitute {name : String} (hname : env name = some c)
    (htag : ∀ op : Operation, name ≠ op.tag) (t : Term) :
    Term.SameValue env t (substitute name (.const c) t) := by
  induction t using Term.induction with
  | const x => exact .refl _
  | sym n =>
    by_cases hn : n = name
    · subst hn
      intro z hz
      obtain ⟨hnz, hfinite⟩ := Term.value?_sym_eq_some_iff.1 hz
      obtain rfl : c = z := Option.some.inj (hname.symm.trans hnz)
      rw [substitute_sym_self]
      exact ⟨c, Term.value?_const hfinite, beq_refl_of_isFinite hfinite⟩
    · rw [substitute_sym_of_ne hn]
      exact .refl _
  | app head args _ ha =>
    have hargs : List.Forall₂ (Term.SameValue env) args
        (args.map (substitute name (.const c))) :=
      List.forall₂_map_right_iff.2 (List.forall₂_same.2 ha)
    intro z hz
    obtain ⟨op, xs, rfl, -⟩ := Term.value?_app_eq_some_iff.1 hz
    rw [substitute_app, substitute_sym_of_ne (htag op).symm]
    exact Term.SameValue.app hargs z hz
  | lam params body => exact .refl _

end TermCalc
