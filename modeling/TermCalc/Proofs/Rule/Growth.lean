import TermCalc.Proofs.Rule.Contraction
import TermCalc.Proofs.Rule.Standard

/-!
# Substitutions that grow

A substitution of `u` for a symbol that occurs in `u`, but is not `u` itself, makes every term
larger in which the symbol occurs. It therefore keeps different terms apart, and where no negation
is involved it makes no operation applicable that was not applicable before.

## Main results

* `size_lt_of_mentions`: the replacement is a proper part of the result
* `equivalent_substitute_substitute_eq`: different terms stay different
* `substitute_contract`: substituting before or after a contraction is the same
* `everywhere_substitute_eq`: an operation that changes neither the term nor the replacement does
  not change the result
-/

namespace TermCalc

namespace Rule

variable {name : String} {u : Term}

/-! ## Different terms stay different -/

/-- The replacement is a part of the result, and a proper one unless the term is the symbol. -/
theorem size_lt_of_mentions {t : Term} (ht : t.mentions name = true) :
    t = .sym name ∨ u.size < (substitute name u t).size := by
  induction t using Term.induction with
  | const x => simp at ht
  | sym n => exact .inl (by rw [Term.mentions_sym.1 ht])
  | app head args hh ha =>
    right
    rw [substitute_app, Term.size]
    rcases Term.mentions_app.1 ht with ht | ⟨a, hm, ht⟩
    · rcases hh ht with rfl | hlt
      · rw [substitute_sym_self]
        omega
      · omega
    · have hle := Term.size_le_sizeAll_of_mem (List.mem_map_of_mem (f := substitute name u) hm)
      rcases ha a hm ht with rfl | hlt
      · rw [substitute_sym_self] at hle
        omega
      · omega
  | lam params body => simp at ht

/-- Equivalent terms have equivalent results. -/
theorem equivalent_substitute_substitute {l r : Term} (h : l.equivalent r = true) :
    (substitute name u l).equivalent (substitute name u r) = true := by
  induction l, r, h using Term.equivalent_induction with
  | const x y h => exact h
  | sym n => exact Term.equivalent_refl _
  | app f g as bs hfg hab hf ha =>
    rw [substitute_app, substitute_app, Term.equivalent_app_iff, List.forall₂_map_left_iff,
      List.forall₂_map_right_iff]
    exact ⟨hf, ha.imp fun _ _ h => h.2⟩
  | lam ps qs b c hpq hbc => exact Term.equivalent_lam_iff.2 ⟨hpq, hbc⟩

/-- Only the symbol itself becomes equivalent to the replacement. -/
theorem eq_sym_of_equivalent_replacement {t : Term} (hu : u.mentions name = true)
    (h : u.size = (substitute name u t).size)
    (hmentions : u.mentions name = (substitute name u t).mentions name) : t = .sym name := by
  by_cases ht : t.mentions name = true
  · rcases size_lt_of_mentions (u := u) ht with h' | hlt
    · exact h'
    · omega
  · rw [substitute_of_not_mentions (by simpa using ht), hu] at hmentions
    exact absurd hmentions.symm ht

variable (hu : u.mentions name = true) (hne : u ≠ .sym name)

include hu hne

/-- The result is a symbol only if the term is that symbol. -/
theorem eq_sym_of_substitute_eq_sym {t : Term} {n : String} (h : substitute name u t = .sym n) :
    t = .sym n := by
  cases t with
  | sym m =>
    by_cases hm : m = name
    · rw [hm, substitute_sym_self] at h
      rw [h, Term.mentions_sym] at hu
      exact absurd (hu ▸ h) hne
    · rwa [substitute_sym_of_ne hm] at h
  | const x => simp at h
  | app f as => simp at h
  | lam ps b => simp at h

/-- Different terms stay different. -/
theorem equivalent_of_substitute {l r : Term}
    (h : (substitute name u l).equivalent (substitute name u r) = true) :
    l.equivalent r = true := by
  -- induction on the left term; terms of two kinds can only meet where one is the symbol
  induction l using Term.induction generalizing r with
  | const x =>
    cases r with
    | const y => exact h
    | sym n =>
      by_cases hn : n = name
      · rw [hn, substitute_sym_self] at h
        have hmentions : Term.mentions name (.const x) = u.mentions name :=
          Term.mentions_eq_of_equivalent h
        rw [hu, Term.mentions_const] at hmentions
        exact absurd hmentions Bool.false_ne_true
      · simp [substitute_sym_of_ne hn, Term.equivalent] at h
    | app g bs => simp [Term.equivalent] at h
    | lam qs c => simp [Term.equivalent] at h
  | sym n =>
    by_cases hn : n = name
    · rw [hn, substitute_sym_self] at h
      rw [hn, eq_sym_of_equivalent_replacement hu (Term.size_eq_of_equivalent h)
        (Term.mentions_eq_of_equivalent h)]
      exact Term.equivalent_refl _
    · rw [substitute_sym_of_ne hn, Term.equivalent_sym_left] at h
      rw [eq_sym_of_substitute_eq_sym hu hne h]
      exact Term.equivalent_refl _
  | app f as hf ha =>
    cases r with
    | app g bs =>
      rw [substitute_app, substitute_app, Term.equivalent_app_iff, List.forall₂_map_left_iff,
        List.forall₂_map_right_iff] at h
      exact Term.equivalent_app_iff.2
        ⟨hf h.1, Term.forall₂_of_forall_mem h.2 fun a hm b => ha a hm⟩
    | sym n =>
      by_cases hn : n = name
      · rw [hn, substitute_sym_self] at h
        have heq := eq_sym_of_equivalent_replacement hu (Term.size_eq_of_equivalent h).symm
          (Term.mentions_eq_of_equivalent h).symm
        exact absurd heq (by simp)
      · simp [substitute_sym_of_ne hn] at h
    | _ => simp [Term.equivalent] at h
  | lam ps b =>
    cases r with
    | lam qs c => exact h
    | sym n =>
      by_cases hn : n = name
      · rw [hn, substitute_sym_self] at h
        have hmentions : Term.mentions name (.lam ps b) = u.mentions name :=
          Term.mentions_eq_of_equivalent h
        rw [hu, Term.mentions_lam] at hmentions
        exact absurd hmentions Bool.false_ne_true
      · simp [substitute_sym_of_ne hn, Term.equivalent] at h
    | _ => simp [Term.equivalent] at h

theorem equivalent_substitute_substitute_eq (l r : Term) :
    (substitute name u l).equivalent (substitute name u r) = l.equivalent r := by
  rw [Bool.eq_iff_iff]
  exact ⟨equivalent_of_substitute hu hne, equivalent_substitute_substitute⟩

theorem isNumber_substitute (t : Term) (x : Float) :
    (substitute name u t).isNumber x = t.isNumber x := by
  cases t with
  | sym n =>
    by_cases hn : n = name
    · rw [hn, substitute_sym_self]
      cases u <;> simp_all [Term.isNumber]
    · rw [substitute_sym_of_ne hn]
  | const y => rfl
  | app f as => simp [Term.isNumber]
  | lam ps b => rfl

theorem isConst_substitute (t : Term) : (substitute name u t).isConst = t.isConst := by
  cases t with
  | sym n =>
    by_cases hn : n = name
    · rw [hn, substitute_sym_self]
      cases u <;> simp_all [Term.isConst]
    · rw [substitute_sym_of_ne hn]
  | const y => rfl
  | app f as => simp [Term.isConst]
  | lam ps b => rfl

/-! ## Operations -/

/-- Substituting before or after a contraction is the same, unless it is one of a negation. -/
theorem substitute_contract (hneg : name ≠ "$neg") {op : Operation} (hop : op ≠ .negate)
    (htag : op.tag ≠ name) (l r : Term) :
    substitute name u (op.contract [l, r]) =
      op.contract [substitute name u l, substitute name u r] := by
  refine Operation.map_contract hop ⟨fun x => rfl, fun a => ?_, ?_, isNumber_substitute hu hne l,
    isNumber_substitute hu hne r, equivalent_substitute_substitute_eq hu hne l r⟩ ?_
  · rw [Term.unary, substitute_app, substitute_sym_of_ne (Ne.symm hneg)]
    rfl
  · rw [isConst_substitute hu hne, isConst_substitute hu hne]
  · rw [substitute_app, substitute_sym_of_ne htag]
    rfl

/-- A symbol at the head of the result stood there before. -/
theorem eq_sym_tag_of_substitute {head : Term} {tag : String}
    (h : substitute name u head = .sym tag) : head = .sym tag ∧ tag ≠ name := by
  have hhead := eq_sym_of_substitute_eq_sym hu hne h
  refine ⟨hhead, ?_⟩
  rintro rfl
  rw [hhead, substitute_sym_self] at h
  exact hne h

/-- An operation that changes neither the term nor the replacement does not change the result, if no
negation occurs in them. -/
theorem everywhere_substitute_eq {op : Operation} (huneg : u.mentions "$neg" = false)
    (hop : op.everywhere u = u) {t : Term} (hneg : t.mentions "$neg" = false)
    (ht : op.everywhere t = t) :
    op.everywhere (substitute name u t) = substitute name u t := by
  induction t using Term.induction with
  | const x => rfl
  | lam params body => rfl
  | sym n =>
    by_cases hn : n = name
    · rwa [hn, substitute_sym_self]
    · rw [substitute_sym_of_ne hn]
      rfl
  | app head args hh ha =>
    obtain ⟨hhead, hargs, hclose⟩ := Operation.everywhere_app_eq_self_iff.1 ht
    obtain ⟨hnhead, hnargs⟩ := Term.mentions_app_eq_false.1 hneg
    rw [substitute_app]
    refine Operation.everywhere_app_eq_self_iff.2 ⟨hh hnhead hhead, ?_, ?_⟩
    · intro b hb
      obtain ⟨a, hm, rfl⟩ := List.mem_map.1 hb
      exact ha a hm (hnargs a hm) (hargs a hm)
    · by_cases happlies : substitute name u head = .sym op.tag ∧
          (args.map (substitute name u)).length = op.operands
      · obtain ⟨hsym, hlength⟩ := happlies
        obtain ⟨rfl, htag⟩ := eq_sym_tag_of_substitute hu hne hsym
        rw [List.length_map] at hlength
        have hname : name ≠ "$neg" := by
          rintro rfl
          rw [hu] at huneg
          exact Bool.noConfusion huneg
        by_cases hassign : op = .assign
        · subst hassign
          exact Operation.close_assign _ _
        · have hnegate : op ≠ .negate := by
            rintro rfl
            exact absurd rfl (Term.mentions_sym_eq_false.1 hnhead)
          have htwo : op.operands = 2 := by
            cases op <;> first | rfl | contradiction
          obtain ⟨l, r, rfl⟩ := List.length_eq_two.1 (hlength.trans htwo)
          rw [Operation.close_of_applies hlength] at hclose
          have hsubst := congrArg (substitute name u) hclose
          rw [substitute_contract hu hne hname hnegate htag, substitute_app, hsym] at hsubst
          rw [hsym, Operation.close_of_applies (by simpa using hlength)]
          exact hsubst
      · exact Operation.close_of_not_applies happlies

end Rule

end TermCalc
