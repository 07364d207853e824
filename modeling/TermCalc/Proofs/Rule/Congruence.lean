import TermCalc.Proofs.Number.Arithmetic
import TermCalc.Proofs.Rule.Contraction
import TermCalc.Proofs.Rule.Standard

/-!
# Rules and equivalent terms

Whether a rule changes a term does not depend on how the term is written: of two equivalent terms it
changes both or none. What it makes of them may differ, since the two zeros count as the same number
and yet have different reciprocals. So only the tests that an operation puts to its operands are
compared here, and not its results.

## Main definitions

* `Operation.contracts op args`: the tests by which `op` makes something else of `args`

## Main results

* `Term.equivalent_symm`, `Term.equivalent_trans`: being equivalent is an equivalence
* `Operation.contract_eq_whole_iff`: an operation leaves an application alone if all tests fail
* `Rule.Standard.not_changes_of_equivalent`: a rule that leaves a term as it is leaves every
  equivalent one as it is
-/

namespace TermCalc

/-! ## Equivalence -/

section Number

variable {x y z : Float}

theorem sameNumber_iff : sameNumber x y = true ↔
    (x == y) = true ∨ x.isNaN = true ∧ y.isNaN = true := by
  rw [sameNumber, Bool.or_eq_true, Bool.and_eq_true]

theorem sameNumber_symm (h : sameNumber x y = true) : sameNumber y x = true := by
  rw [sameNumber_iff] at h ⊢
  exact h.imp Binary64.beq_symm And.symm

/-- What is equal to something is a number. -/
theorem Binary64.isNaN_of_beq (h : (x == y) = true) : y.isNaN = false := by
  rcases beq_iff.1 h with ⟨hx, rfl⟩ | ⟨-, hy⟩
  · exact hx
  · exact isNaN_of_isFinite hy.isFinite

theorem sameNumber_trans (h : sameNumber x y = true) (h' : sameNumber y z = true) :
    sameNumber x z = true := by
  rw [sameNumber_iff] at h h' ⊢
  rcases h with h | ⟨hx, hy⟩
  · rcases h' with h' | ⟨hy, -⟩
    · exact .inl (Binary64.beq_trans h h')
    · exact Bool.noConfusion (hy.symm.trans (Binary64.isNaN_of_beq h))
  · rcases h' with h' | ⟨-, hz⟩
    · have hy' := Binary64.isNaN_of_beq (Binary64.beq_symm h')
      exact Bool.noConfusion (hy.symm.trans hy')
    · exact .inr ⟨hx, hz⟩

/-- A number that is equal to another one is the same as whatever that is the same as. -/
theorem beq_congr_of_sameNumber (h : sameNumber x y = true) : (x == z) = (y == z) := by
  rw [Bool.eq_iff_iff]
  rcases sameNumber_iff.1 h with h | ⟨hx, hy⟩
  · exact ⟨Binary64.beq_trans (Binary64.beq_symm h), Binary64.beq_trans h⟩
  · refine iff_of_false (fun he => ?_) fun he => ?_
    · exact Bool.noConfusion (hx.symm.trans (Binary64.isNaN_of_beq (Binary64.beq_symm he)))
    · exact Bool.noConfusion (hy.symm.trans (Binary64.isNaN_of_beq (Binary64.beq_symm he)))

end Number

namespace Term

variable {r s t s' t' : Term}

theorem equivalent_const_iff {x : Float} :
    (const x).equivalent t = true ↔ ∃ y, t = .const y ∧ sameNumber x y = true := by
  cases t with
  | const y => simp [equivalent]
  | _ => simp [equivalent]

theorem equivalent_symm (h : s.equivalent t = true) : t.equivalent s = true := by
  induction s, t, h using equivalent_induction with
  | const x y h => exact sameNumber_symm h
  | sym name => exact equivalent_refl _
  | app f g as bs hfg hab hf ha =>
    exact equivalent_app_iff.2 ⟨hf, List.Forall₂.flip (ha.imp fun _ _ h => h.2)⟩
  | lam ps qs b c hpq hbc hp hb =>
    exact equivalent_lam_iff.2 ⟨List.Forall₂.flip (hp.imp fun _ _ h => h.2), hb⟩

theorem forall₂_comp {R S T : Term → Term → Prop} {as bs cs : List Term}
    (h : List.Forall₂ R as bs) (h' : List.Forall₂ S bs cs)
    (hT : ∀ a ∈ as, ∀ b c, R a b → S b c → T a c) : List.Forall₂ T as cs := by
  induction h generalizing cs with
  | nil =>
    cases h'
    exact .nil
  | cons hab _ ih =>
    cases h' with
    | cons hbc hrest =>
      exact .cons (hT _ List.mem_cons_self _ _ hab hbc)
        (ih hrest fun a ha => hT a (List.mem_cons_of_mem _ ha))

theorem equivalent_trans (h : r.equivalent s = true) (h' : s.equivalent t = true) :
    r.equivalent t = true := by
  induction r using Term.induction generalizing s t with
  | const x =>
    obtain ⟨y, rfl, hxy⟩ := equivalent_const_iff.1 h
    obtain ⟨z, rfl, hyz⟩ := equivalent_const_iff.1 h'
    exact sameNumber_trans hxy hyz
  | sym name => exact equivalent_sym_left.1 h ▸ h'
  | app head args hh ha =>
    cases s with
    | app head₁ args₁ =>
      cases t with
      | app head₂ args₂ =>
        obtain ⟨hhead, hargs⟩ := equivalent_app_iff.1 h
        obtain ⟨hhead', hargs'⟩ := equivalent_app_iff.1 h'
        exact equivalent_app_iff.2 ⟨hh hhead hhead',
          forall₂_comp hargs hargs' fun a hm b c => ha a hm⟩
      | _ => simp [equivalent] at h'
    | _ => simp [equivalent] at h
  | lam params body hp hb =>
    cases s with
    | lam params₁ body₁ =>
      cases t with
      | lam params₂ body₂ =>
        obtain ⟨hparams, hbody⟩ := equivalent_lam_iff.1 h
        obtain ⟨hparams', hbody'⟩ := equivalent_lam_iff.1 h'
        exact equivalent_lam_iff.2 ⟨forall₂_comp hparams hparams' fun p hm q q' => hp p hm,
          hb hbody hbody'⟩
      | _ => simp [equivalent] at h'
    | _ => simp [equivalent] at h

/-! ## What the tests look at -/

theorem isConst_eq_of_equivalent (h : s.equivalent t = true) : s.isConst = t.isConst := by
  cases s <;> cases t <;> first | rfl | simp [equivalent] at h

theorem isNumber_eq_of_equivalent (h : s.equivalent t = true) (c : Float) :
    s.isNumber c = t.isNumber c := by
  cases s with
  | const x =>
    obtain ⟨y, rfl, hsame⟩ := equivalent_const_iff.1 h
    exact beq_congr_of_sameNumber hsame
  | _ => cases t <;> first | rfl | simp [equivalent] at h

theorem equivalent_eq_of_equivalent (hs : s.equivalent s' = true) (ht : t.equivalent t' = true) :
    s.equivalent t = s'.equivalent t' := by
  rw [Bool.eq_iff_iff]
  constructor
  · exact fun h => equivalent_trans (equivalent_symm hs) (equivalent_trans h ht)
  · exact fun h => equivalent_trans hs (equivalent_trans h (equivalent_symm ht))

/-- Whether the term is an application of `$neg` to at least one argument. -/
def isNegation : Term → Bool
  | .app (.sym tag) (_ :: _) => tag == "$neg"
  | _ => false

theorem isNegation_eq_of_equivalent (h : s.equivalent t = true) : s.isNegation = t.isNegation := by
  cases s with
  | app head args =>
    cases t with
    | app head' args' =>
      obtain ⟨hhead, hargs⟩ := equivalent_app_iff.1 h
      cases head with
      | sym tag =>
        obtain rfl := equivalent_sym_left.1 hhead
        cases hargs <;> rfl
      | _ => cases head' <;> first | rfl | simp [equivalent] at hhead
    | _ => simp [equivalent] at h
  | _ => cases t <;> first | rfl | simp [equivalent] at h

end Term

/-! ## The tests of an operation -/

namespace Operation

variable {op : Operation} {args args' : List Term} {left right t w : Term}

/-- Whether an operation makes something else of an application of its tag: the tests that it puts
to the operands, of which two constants always pass one. -/
def contracts (op : Operation) (args : List Term) : Bool :=
  match op, args with
  | .negate, [operand] => operand.isConst || operand.isNegation
  | .add, [left, right] =>
    left.isConst && right.isConst || (left.isNumber 0 || right.isNumber 0)
  | .subtract, [left, right] =>
    left.isConst && right.isConst ||
      (left.isNumber 0 || right.isNumber 0 || left.equivalent right)
  | .multiply, [left, right] =>
    left.isConst && right.isConst ||
      (left.isNumber 0 || right.isNumber 0 || left.isNumber 1 || right.isNumber 1 ||
        left.isNumber (-1) || right.isNumber (-1))
  | .divide, [left, right] =>
    left.isConst && right.isConst ||
      (left.isNumber 0 || right.isNumber 1 || right.isNumber (-1))
  | _, _ => false

/-- An application is none of its operands. -/
theorem ne_app_of_mem {a head : Term} (h : a ∈ args) : a ≠ .app head args := by
  intro heq
  have hle := Term.size_le_sizeAll_of_mem h
  have hsize := congrArg Term.size heq
  rw [Term.size] at hsize
  omega

theorem isConst_and_iff :
    (left.isConst && right.isConst) = true ↔ ∃ x y, left = .const x ∧ right = .const y := by
  cases left <;> cases right <;> simp [Term.isConst]

theorem negation_eq_whole_iff (operand : Term) :
    negation (.app (.sym "$neg") [operand]) operand = .app (.sym "$neg") [operand] ↔
      (operand.isConst || operand.isNegation) = false := by
  cases operand with
  | const x => simp [negation, Term.isConst]
  | sym name => simp [negation, Term.isConst, Term.isNegation]
  | lam params body => simp [negation, Term.isConst, Term.isNegation]
  | app head args =>
    cases args with
    | nil => cases head <;> simp [negation, Term.isConst, Term.isNegation]
    | cons first rest =>
      cases head with
      | sym tag =>
        simp only [negation, Term.isConst, Term.isNegation, Bool.false_or, beq_eq_false_iff_ne]
        split_ifs with htag
        · subst htag
          refine iff_of_false (fun heq => ?_) fun hne => hne rfl
          have hsize := congrArg Term.size heq
          simp only [Term.size, Term.sizeAll] at hsize
          omega
        · exact iff_of_true rfl htag
      | _ => simp [negation, Term.isConst, Term.isNegation]

section Binary

variable {whole : Term} (hleft : left ≠ whole) (hright : right ≠ whole)
  (hconst : ∀ x, Term.const x ≠ whole) (hneg : ∀ a, Term.unary "$neg" a ≠ whole)

include hleft hright hconst

theorem sum_eq_whole_iff : sum whole left right = whole ↔
    (left.isConst && right.isConst || (left.isNumber 0 || right.isNumber 0)) = false := by
  cases hc : left.isConst && right.isConst with
  | true =>
    obtain ⟨x, y, rfl, rfl⟩ := isConst_and_iff.1 hc
    simp [sum, hconst]
  | false =>
    rw [sum_eq hc]
    split_ifs <;> simp_all

include hneg

theorem difference_eq_whole_iff : difference whole left right = whole ↔
    (left.isConst && right.isConst ||
      (left.isNumber 0 || right.isNumber 0 || left.equivalent right)) = false := by
  cases hc : left.isConst && right.isConst with
  | true =>
    obtain ⟨x, y, rfl, rfl⟩ := isConst_and_iff.1 hc
    simp [difference, hconst]
  | false =>
    rw [difference_eq hc]
    split_ifs <;> simp_all

theorem product_eq_whole_iff : product whole left right = whole ↔
    (left.isConst && right.isConst ||
      (left.isNumber 0 || right.isNumber 0 || left.isNumber 1 || right.isNumber 1 ||
        left.isNumber (-1) || right.isNumber (-1))) = false := by
  cases hc : left.isConst && right.isConst with
  | true =>
    obtain ⟨x, y, rfl, rfl⟩ := isConst_and_iff.1 hc
    simp [product, hconst]
  | false =>
    rw [product_eq hc]
    split_ifs with hzero
    · rcases Bool.or_eq_true_iff.1 hzero with h | h <;> simp [h, hconst]
    all_goals simp_all

theorem quotient_eq_whole_iff : quotient whole left right = whole ↔
    (left.isConst && right.isConst ||
      (left.isNumber 0 || right.isNumber 1 || right.isNumber (-1))) = false := by
  cases hc : left.isConst && right.isConst with
  | true =>
    obtain ⟨x, y, rfl, rfl⟩ := isConst_and_iff.1 hc
    simp [quotient, hconst]
  | false =>
    rw [quotient_eq hc]
    split_ifs <;> simp_all

end Binary

/-- An operation leaves an application of its tag alone if all its tests fail. -/
theorem contract_eq_whole_iff (h : args.length = op.operands) :
    op.contract args = .app (.sym op.tag) args ↔ op.contracts args = false := by
  by_cases hop : op = .negate
  · subst hop
    obtain ⟨operand, rfl⟩ := List.length_eq_one_iff.1 h
    exact negation_eq_whole_iff operand
  · obtain ⟨left, right, rfl⟩ := List.length_eq_two.1 (h.trans (operands_of_ne_negate hop))
    have hleft : left ≠ .app (.sym op.tag) [left, right] := ne_app_of_mem (by simp)
    have hright : right ≠ .app (.sym op.tag) [left, right] := ne_app_of_mem (by simp)
    have hconst : ∀ x, Term.const x ≠ .app (.sym op.tag) [left, right] := fun _ h => nomatch h
    have hneg : ∀ a, Term.unary "$neg" a ≠ .app (.sym op.tag) [left, right] := by
      intro a heq
      simp [Term.unary] at heq
    cases op with
    | negate => exact absurd rfl hop
    | assign => exact iff_of_true rfl rfl
    | add => exact sum_eq_whole_iff hleft hright hconst
    | subtract => exact difference_eq_whole_iff hleft hright hconst hneg
    | multiply => exact product_eq_whole_iff hleft hright hconst hneg
    | divide => exact quotient_eq_whole_iff hleft hright hconst hneg

/-- The tests come out alike for equivalent operands. -/
theorem contracts_eq_of_equivalent
    (h : List.Forall₂ (fun a b => a.equivalent b = true) args args') :
    op.contracts args = op.contracts args' := by
  match h with
  | .nil => rfl
  | .cons ha .nil =>
    have hconst := Term.isConst_eq_of_equivalent ha
    have hnegation := Term.isNegation_eq_of_equivalent ha
    cases op <;> simp only [contracts, hconst, hnegation]
  | .cons ha (.cons hb .nil) =>
    have hconst := Term.isConst_eq_of_equivalent ha
    have hconst' := Term.isConst_eq_of_equivalent hb
    have hnumber := Term.isNumber_eq_of_equivalent ha
    have hnumber' := Term.isNumber_eq_of_equivalent hb
    have hequivalent := Term.equivalent_eq_of_equivalent ha hb
    cases op <;>
      simp only [contracts, hconst, hconst', hnumber, hnumber', hequivalent]
  | .cons _ (.cons _ (.cons _ _)) => cases op <;> rfl

theorem close_eq_self_iff {head : Term} :
    op.close head args = .app head args ↔
      ¬ (head = .sym op.tag ∧ args.length = op.operands ∧ op.contracts args = true) := by
  by_cases h : head = .sym op.tag ∧ args.length = op.operands
  · obtain ⟨rfl, hlength⟩ := h
    rw [close_of_applies hlength, contract_eq_whole_iff hlength]
    simp [hlength]
  · exact iff_of_true (close_of_not_applies h) fun h' => h ⟨h'.1, h'.2.1⟩

/-- Of two equivalent terms an operation leaves both as they are or none. -/
theorem everywhere_eq_self_of_equivalent (h : t.equivalent w = true)
    (ht : op.everywhere t = t) : op.everywhere w = w := by
  induction t, w, h using Term.equivalent_induction with
  | const x y h => rfl
  | sym name => rfl
  | app head head' args args' hhead hargs hh ha =>
    obtain ⟨hhead', hargs', hclose⟩ := everywhere_app_eq_self_iff.1 ht
    refine everywhere_app_eq_self_iff.2 ⟨hh hhead', ?_, ?_⟩
    · have hall : List.Forall₂ (fun _ b => op.everywhere b = b) args args' :=
        Term.forall₂_of_forall_mem ha fun a hm b h => h.2 (hargs' a hm)
      intro b hb
      obtain ⟨i, hi, rfl⟩ := List.getElem_of_mem hb
      exact List.Forall₂.get hall (by rwa [hall.length_eq]) hi
    · rw [close_eq_self_iff] at hclose ⊢
      rintro ⟨rfl, hlength, hcontracts⟩
      apply hclose
      refine ⟨Term.equivalent_sym_right.1 hhead, hargs.length_eq.trans hlength, ?_⟩
      rw [contracts_eq_of_equivalent hargs, hcontracts]
  | lam params params' body body' hparams hbody => rfl

end Operation

namespace Rule

variable {r : Rule} {t w : Term}

/-- A rule that leaves a term as it is leaves every equivalent one as it is. -/
theorem Standard.not_changes_of_equivalent (h : r.Standard) (ht : t.equivalent w = true)
    (hc : ¬ r.Changes t) : ¬ r.Changes w := by
  cases h with
  | substitution name u =>
    rw [changes_substitution_iff] at hc ⊢
    rwa [← Term.mentions_eq_of_equivalent ht]
  | builtin op =>
    have hstd := Standard.builtin op
    rw [hstd.not_changes_iff, output_ofOperation] at hc ⊢
    exact Operation.everywhere_eq_self_of_equivalent ht hc

end Rule

end TermCalc
