import TermCalc.Proofs.Number.Same
import TermCalc.Proofs.Rule.Congruence
import TermCalc.Proofs.Rule.Growth

/-!
# Rules that are alike

Rules are alike if they are the same but for how the numbers in a replacement are written. Alike
rules make equivalent terms of equivalent terms, unless there is a division in the terms, which may
tell the two zeros from each other. They always bind the same names to equivalent definitions.

## Main definitions

* `Binding.Alike b c`: the same name with equivalent definitions
* `Rule.Alike q r`: the same operation, or substitutions of equivalent terms for the same symbol

## Main results

* `Rule.equivalent_substitute`: substituting equivalent terms in equivalent terms
* `Operation.equivalent_contract`: contractions of equivalent operands, but for division
* `Operation.equivalent_everywhere`: operations on equivalent terms without a division
* `Term.alike_assignments`: the assignments of equivalent terms
* `Rule.Alike.output`, `Rule.Alike.bindings`: what alike rules do to equivalent terms
-/

namespace TermCalc

/-! ## Substitutions -/

namespace Rule

variable {name : String} {u u' : Term}

theorem equivalent_substitute_replacement (hu : u.equivalent u' = true) (t : Term) :
    (substitute name u t).equivalent (substitute name u' t) = true := by
  induction t using Term.induction with
  | const x => exact Term.equivalent_refl _
  | sym n =>
    by_cases hn : n = name
    · rw [hn, substitute_sym_self, substitute_sym_self]
      exact hu
    · rw [substitute_sym_of_ne hn, substitute_sym_of_ne hn]
      exact Term.equivalent_refl _
  | app head args hh ha =>
    rw [substitute_app, substitute_app, Term.equivalent_app_iff, List.forall₂_map_left_iff,
      List.forall₂_map_right_iff]
    exact ⟨hh, List.forall₂_same.2 ha⟩
  | lam params body => exact Term.equivalent_refl _

/-- Equivalent terms that are substituted in equivalent terms give equivalent terms. -/
theorem equivalent_substitute {t t' : Term} (hu : u.equivalent u' = true)
    (ht : t.equivalent t' = true) :
    (substitute name u t).equivalent (substitute name u' t') = true :=
  Term.equivalent_trans (equivalent_substitute_substitute ht)
    (equivalent_substitute_replacement hu t')

end Rule

/-! ## Contractions -/

namespace Operation

variable {op : Operation} {whole whole' operand operand' left left' right right' : Term}

/-- Of equivalent pairs of operands both are pairs of constants, or neither is. -/
theorem constants_or_not (hleft : left.equivalent left' = true)
    (hright : right.equivalent right' = true) :
    (∃ x x' y y', left = .const x ∧ left' = .const x' ∧ right = .const y ∧ right' = .const y' ∧
      sameNumber x x' = true ∧ sameNumber y y' = true) ∨
    (left.isConst && right.isConst) = false ∧ (left'.isConst && right'.isConst) = false := by
  cases hc : left.isConst && right.isConst with
  | true =>
    obtain ⟨x, y, rfl, rfl⟩ := isConst_and_iff.1 hc
    obtain ⟨x', rfl, hx⟩ := Term.equivalent_const_iff.1 hleft
    obtain ⟨y', rfl, hy⟩ := Term.equivalent_const_iff.1 hright
    exact .inl ⟨x, x', y, y', rfl, rfl, rfl, rfl, hx, hy⟩
  | false =>
    refine .inr ⟨rfl, ?_⟩
    rw [← Term.isConst_eq_of_equivalent hleft, ← Term.isConst_eq_of_equivalent hright, hc]

theorem equivalent_negative (h : operand.equivalent operand' = true) :
    (Term.unary "$neg" operand).equivalent (.unary "$neg" operand') = true :=
  Term.equivalent_app_iff.2 ⟨Term.equivalent_refl _, .cons h .nil⟩

theorem equivalent_negation (hwhole : whole.equivalent whole' = true)
    (h : operand.equivalent operand' = true) :
    (negation whole operand).equivalent (negation whole' operand') = true := by
  cases operand with
  | const x =>
    obtain ⟨y, rfl, hxy⟩ := Term.equivalent_const_iff.1 h
    exact sameNumber_neg hxy
  | sym name =>
    rw [Term.equivalent_sym_left.1 h]
    exact hwhole
  | app head args =>
    cases operand' with
    | app head' args' =>
      obtain ⟨hhead, hargs⟩ := Term.equivalent_app_iff.1 h
      cases head with
      | sym tag =>
        obtain rfl := Term.equivalent_sym_left.1 hhead
        cases hargs with
        | nil => exact hwhole
        | cons hfirst _ =>
          rw [negation, negation]
          split_ifs
          · exact hfirst
          · exact hwhole
      | _ => cases head' <;> first | exact hwhole | simp [Term.equivalent] at hhead
    | _ => simp [Term.equivalent] at h
  | lam params body =>
    cases operand' with
    | lam params' body' => exact hwhole
    | _ => simp [Term.equivalent] at h

section Binary

variable (hwhole : whole.equivalent whole' = true) (hleft : left.equivalent left' = true)
  (hright : right.equivalent right' = true)

include hwhole hleft hright

theorem equivalent_sum : (sum whole left right).equivalent (sum whole' left' right') = true := by
  rcases constants_or_not hleft hright with ⟨x, x', y, y', rfl, rfl, rfl, rfl, hx, hy⟩ | ⟨hc, hc'⟩
  · exact sameNumber_add hx hy
  · rw [sum_eq hc, sum_eq hc']
    simp only [← Term.isNumber_eq_of_equivalent hleft, ← Term.isNumber_eq_of_equivalent hright]
    split_ifs
    · exact hright
    · exact hleft
    · exact hwhole

theorem equivalent_difference :
    (difference whole left right).equivalent (difference whole' left' right') = true := by
  rcases constants_or_not hleft hright with ⟨x, x', y, y', rfl, rfl, rfl, rfl, hx, hy⟩ | ⟨hc, hc'⟩
  · exact sameNumber_sub hx hy
  · rw [difference_eq hc, difference_eq hc']
    simp only [← Term.isNumber_eq_of_equivalent hleft, ← Term.isNumber_eq_of_equivalent hright,
      ← Term.equivalent_eq_of_equivalent hleft hright]
    split_ifs
    · exact equivalent_negative hright
    · exact hleft
    · exact Term.equivalent_refl _
    · exact hwhole

theorem equivalent_product :
    (product whole left right).equivalent (product whole' left' right') = true := by
  rcases constants_or_not hleft hright with ⟨x, x', y, y', rfl, rfl, rfl, rfl, hx, hy⟩ | ⟨hc, hc'⟩
  · exact sameNumber_mul hx hy
  · rw [product_eq hc, product_eq hc']
    simp only [← Term.isNumber_eq_of_equivalent hleft, ← Term.isNumber_eq_of_equivalent hright]
    split_ifs
    · exact Term.equivalent_refl _
    · exact hright
    · exact hleft
    · exact equivalent_negative hright
    · exact equivalent_negative hleft
    · exact hwhole

end Binary

variable {head head' : Term} {args args' : List Term}

/-- Every operation but division contracts equivalent operands to equivalent terms. -/
theorem equivalent_contract (hop : op ≠ .divide)
    (h : List.Forall₂ (fun a b => a.equivalent b = true) args args') :
    (op.contract args).equivalent (op.contract args') = true := by
  have hwhole : (Term.app (.sym op.tag) args).equivalent (.app (.sym op.tag) args') = true :=
    Term.equivalent_app_iff.2 ⟨Term.equivalent_refl _, h⟩
  match h with
  | .nil => cases op <;> exact hwhole
  | .cons ha .nil =>
    cases op with
    | negate => exact equivalent_negation hwhole ha
    | _ => exact hwhole
  | .cons ha (.cons hb .nil) =>
    cases op with
    | assign => exact hwhole
    | negate => exact hwhole
    | add => exact equivalent_sum hwhole ha hb
    | subtract => exact equivalent_difference hwhole ha hb
    | multiply => exact equivalent_product hwhole ha hb
    | divide => exact absurd rfl hop
  | .cons _ (.cons _ (.cons _ _)) => cases op <;> exact hwhole

theorem equivalent_close (hop : op ≠ .divide) (hhead : head.equivalent head' = true)
    (hargs : List.Forall₂ (fun a b => a.equivalent b = true) args args') :
    (op.close head args).equivalent (op.close head' args') = true := by
  by_cases h : head = .sym op.tag ∧ args.length = op.operands
  · obtain ⟨rfl, hlength⟩ := h
    obtain rfl := Term.equivalent_sym_left.1 hhead
    rw [close_of_applies hlength, close_of_applies (hargs.length_eq ▸ hlength)]
    exact equivalent_contract hop hargs
  · have h' : ¬ (head' = .sym op.tag ∧ args'.length = op.operands) := by
      rintro ⟨rfl, hlength⟩
      exact h ⟨Term.equivalent_sym_right.1 hhead, hargs.length_eq.trans hlength⟩
    rw [close_of_not_applies h, close_of_not_applies h']
    exact Term.equivalent_app_iff.2 ⟨hhead, hargs⟩

/-! ## Operations everywhere in a term -/

/-- An operation leaves a term as it is in which its tag does not occur. -/
theorem everywhere_of_not_mentions {t : Term} (h : t.mentions op.tag = false) :
    op.everywhere t = t := by
  induction t using Term.induction with
  | const x => rfl
  | sym name => rfl
  | app head args hh ha =>
    obtain ⟨hhead, hargs⟩ := Term.mentions_app_eq_false.1 h
    refine everywhere_app_eq_self_iff.2 ⟨hh hhead, fun a hm => ha a hm (hargs a hm), ?_⟩
    apply close_of_not_applies
    rintro ⟨rfl, -⟩
    exact Term.mentions_sym_eq_false.1 hhead rfl
  | lam params body => rfl

/-- What an operation makes of equivalent terms without a division is equivalent. -/
theorem equivalent_everywhere {t w : Term} (h : t.equivalent w = true)
    (hdiv : t.mentions "$div" = false) :
    (op.everywhere t).equivalent (op.everywhere w) = true := by
  by_cases hop : op = .divide
  · have hself : ∀ s : Term, s.mentions "$div" = false → divide.everywhere s = s :=
      fun s hs => everywhere_of_not_mentions hs
    rw [hop, hself t hdiv, hself w ((Term.mentions_eq_of_equivalent h).symm.trans hdiv)]
    exact h
  induction t, w, h using Term.equivalent_induction with
  | const x y h => exact h
  | sym name => exact Term.equivalent_refl _
  | app head head' args args' hhead hargs hh ha =>
    obtain ⟨hdhead, hdargs⟩ := Term.mentions_app_eq_false.1 hdiv
    rw [everywhere_app, everywhere_app]
    apply equivalent_close hop (hh hdhead)
    rw [List.forall₂_map_left_iff, List.forall₂_map_right_iff]
    exact Term.forall₂_of_forall_mem ha fun a hm b h => h.2 (hdargs a hm)
  | lam params params' body body' hparams hbody =>
    exact Term.equivalent_lam_iff.2 ⟨hparams, hbody⟩

end Operation

/-! ## Assignments -/

/-- The same name with equivalent definitions. -/
structure Binding.Alike (b c : Binding) : Prop where
  name : b.name = c.name
  definition : b.definition.equivalent c.definition = true

namespace Operation

variable {head head' : Term} {args args' : List Term}

theorem assigned_eq_nil (h : ¬ ∃ name d, head = .sym "$let" ∧ args = [.sym name, d]) :
    assigned head args = [] := by
  apply List.eq_nil_iff_forall_not_mem.2
  intro b hb
  obtain ⟨hhead, hargs⟩ := Term.app.inj (Rule.eq_of_mem_assigned hb)
  exact h ⟨b.name, b.definition, hhead, hargs⟩

/-- Equivalent applications assign the same name to equivalent definitions, or nothing. -/
theorem alike_assigned (hhead : head.equivalent head' = true)
    (hargs : List.Forall₂ (fun a b => a.equivalent b = true) args args') :
    List.Forall₂ Binding.Alike (assigned head args) (assigned head' args') := by
  by_cases h : ∃ name d, head = .sym "$let" ∧ args = [.sym name, d]
  · obtain ⟨name, d, rfl, rfl⟩ := h
    obtain rfl := Term.equivalent_sym_left.1 hhead
    match hargs with
    | .cons hname (.cons hd .nil) =>
      obtain rfl := Term.equivalent_sym_left.1 hname
      exact .cons ⟨rfl, hd⟩ .nil
  · have h' : ¬ ∃ name d, head' = .sym "$let" ∧ args' = [.sym name, d] := by
      rintro ⟨name, d, rfl, rfl⟩
      match hargs with
      | .cons hname (.cons hd .nil) =>
        obtain rfl := Term.equivalent_sym_right.1 hname
        exact h ⟨name, _, Term.equivalent_sym_right.1 hhead, rfl⟩
    rw [assigned_eq_nil h, assigned_eq_nil h']
    exact .nil

end Operation

namespace Term

theorem alike_assignmentsAll {ts ws : List Term}
    (h : List.Forall₂ (fun t w => List.Forall₂ Binding.Alike t.assignments w.assignments) ts ws) :
    List.Forall₂ Binding.Alike (assignmentsAll ts) (assignmentsAll ws) := by
  induction h with
  | nil => exact .nil
  | cons h _ ih =>
    rw [assignmentsAll, assignmentsAll]
    exact List.rel_append h ih

/-- The assignments of equivalent terms bind the same names to equivalent definitions. -/
theorem alike_assignments {t w : Term} (h : t.equivalent w = true) :
    List.Forall₂ Binding.Alike t.assignments w.assignments := by
  induction t, w, h using equivalent_induction with
  | const x y h => exact .nil
  | sym name => exact .nil
  | app head head' args args' hhead hargs hh ha =>
    have hparts := alike_assignmentsAll (ha.imp fun _ _ h => h.2)
    rw [assignments, assignments]
    exact List.rel_append hh (List.rel_append hparts (Operation.alike_assigned hhead hargs))
  | lam params params' body body' hparams hbody => exact .nil

end Term

/-! ## Rules -/

namespace Rule

/-- The same operation, or substitutions of equivalent terms for the same symbol. -/
inductive Alike : Rule → Rule → Prop
  | substitution (name : String) {u u' : Term} (h : u.equivalent u' = true) :
    Alike (.substitution name u) (.substitution name u')
  | operation (tag : String) (op : Operation) (arity : Option Int) :
    Alike (.operation tag op arity) (.operation tag op arity)

variable {q r : Rule} {v w : Term}

theorem Alike.refl (r : Rule) : r.Alike r := by
  cases r with
  | substitution name u => exact .substitution name (Term.equivalent_refl u)
  | operation tag op arity => exact .operation tag op arity

theorem Alike.symm (h : q.Alike r) : r.Alike q := by
  cases h with
  | substitution name hu => exact .substitution name (Term.equivalent_symm hu)
  | operation tag op arity => exact .operation tag op arity

/-- Alike rules rename the same symbols. -/
theorem Alike.renames_eq (h : q.Alike r) (name : String) : q.renames name = r.renames name := by
  cases h with
  | substitution n hu =>
    rw [renames, renames, Term.equivalent_eq_of_equivalent (Term.equivalent_refl _) hu]
  | operation tag op arity => rfl

theorem Alike.standard (h : q.Alike r) (hq : q.Standard) : r.Standard := by
  cases h with
  | substitution name hu => exact .substitution _ _
  | operation tag op arity => exact hq

/-- Alike rules make equivalent terms of equivalent terms without a division. -/
theorem Alike.output (h : q.Alike r) (hq : q.Standard) (hvw : v.equivalent w = true)
    (hdiv : v.mentions "$div" = false) : (q.output v).equivalent (r.output w) = true := by
  cases h with
  | substitution name hu => exact equivalent_substitute hu hvw
  | operation tag op arity =>
    cases hq with
    | builtin op =>
      change ((ofOperation op).output v).equivalent ((ofOperation op).output w) = true
      rw [output_ofOperation, output_ofOperation]
      exact Operation.equivalent_everywhere hvw hdiv

/-- Alike rules bind the same names to equivalent definitions. -/
theorem Alike.bindings (h : q.Alike r) (hq : q.Standard) (hvw : v.equivalent w = true) :
    List.Forall₂ Binding.Alike (q.bindings v) (r.bindings w) := by
  cases h with
  | substitution name hu => exact .nil
  | operation tag op arity =>
    cases hq with
    | builtin op =>
      change List.Forall₂ Binding.Alike ((ofOperation op).bindings v) ((ofOperation op).bindings w)
      rw [bindings_ofOperation, bindings_ofOperation, boundBy, boundBy]
      split_ifs
      · exact Term.alike_assignments hvw
      · exact .nil

end Rule

end TermCalc
