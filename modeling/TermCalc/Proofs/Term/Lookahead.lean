import TermCalc.Proofs.Term.Parser
import TermCalc.Proofs.Term.Refusal
import TermCalc.Proofs.Term.Rejection

/-!
# Reading looks at one token ahead

What a reading function does is decided by the tokens that it takes and by the one behind them. If
it stops in front of a token, then what follows that token can be exchanged for anything else: the
reading gives the same or is refused at the same place.

In the lemmas `ws` are the tokens that are kept and `xs` is the end of them that is left, which is
not empty. What is exchanged stands behind both.

## Main results

* `Parser.gives_expression_local`, `Parser.gives_factor_local`, …: what is given
* `Parser.refuses_expression_local`, `Parser.refuses_factor_local`, …: where reading is refused
-/

namespace TermCalc.Parser

variable {α : Type} {ts us rest xs suf suf' : List Token}

/-! ## What is left of the tokens -/

theorem Yields.suffix {ρ : Type} {view : ρ → α × List Token} {r : Except Failure ρ} {v : α}
    (h : Yields view r v rest) (hs : Stays us (fun a => (view a).2) r) : rest <:+ us := by
  obtain ⟨a, rfl, -, rfl⟩ := h
  exact hs

theorem Refuses.suffix {r : Except Failure α} {f : α → List Token} (h : Refuses r rest)
    (hs : Stays us f r) : rest <:+ us := by
  obtain ⟨problem, rfl⟩ := h
  exact hs

theorem Yields.rest_unique {ρ : Type} {view : ρ → α × List Token} {r : Except Failure ρ} {v w : α}
    (h : Yields view r v rest) (h' : Yields view r w us) : rest = us := by
  obtain ⟨a, ha, -, rfl⟩ := h
  obtain ⟨b, hb, -, rfl⟩ := h'
  cases ha.symm.trans hb
  rfl

/-- What ends with kept tokens and the exchanged ones has kept tokens in front of these. -/
theorem exists_kept (hx : xs ≠ []) (h : xs ++ suf <:+ us) : ∃ ys, ys ≠ [] ∧ us = ys ++ suf := by
  obtain ⟨zs, rfl⟩ := h
  exact ⟨zs ++ xs, List.append_ne_nil_of_right_ne_nil zs hx, (List.append_assoc _ _ _).symm⟩

theorem not_kept_suffix (hx : xs ≠ []) : ¬ xs ++ suf <:+ [] ++ suf := by
  intro h
  have hlength := h.length_le
  have hpos := List.length_pos_iff.2 hx
  rw [List.length_append, List.nil_append] at hlength
  omega

/-! ## What is given -/

-- The recursion is that of the reading functions, on the tokens that are kept.
mutual

theorem gives_expression_local (ws : List Token) {xs : List Token} {v : Term} (hx : xs ≠ [])
    (h : Gives (expression (ws ++ suf)) v (xs ++ suf)) :
    Gives (expression (ws ++ suf')) v (xs ++ suf') := by
  obtain ⟨first, mid, hfirst, hsums⟩ := gives_expression.1 h
  obtain ⟨ys, hy, rfl⟩ := exists_kept hx (hsums.suffix (stays_sums first mid))
  have hshort : ys.length < ws.length := by simpa using hfirst.shorter
  exact gives_expression.2
    ⟨first, _, gives_term_local ws hy hfirst, givesOn_sums_local first ys hx hsums⟩
termination_by 4 * ws.length + 2

theorem givesOn_sums_local (left : Term) (ws : List Token) {xs : List Token} {v : Term}
    (hx : xs ≠ []) (h : GivesOn (sums left (ws ++ suf)) v (xs ++ suf)) :
    GivesOn (sums left (ws ++ suf')) v (xs ++ suf') := by
  match ws with
  | [] => exact absurd (h.suffix (stays_sums left _)) (not_kept_suffix hx)
  | t :: ws =>
    cases htag : sumTag? t with
    | none =>
      have hend : ∀ suf, ∀ u ∈ (t :: ws ++ suf).head?, sumTag? u = none :=
        fun _ => forall_head_cons htag
      obtain ⟨rfl, he⟩ := (givesOn_sums_of_none (hend suf)).1 h
      obtain rfl := List.append_cancel_right he
      exact (givesOn_sums_of_none (hend suf')).2 ⟨rfl, rfl⟩
    | some tag =>
      obtain ⟨right, mid, hright, hsums⟩ := (givesOn_sums_cons htag).1 h
      obtain ⟨ys, hy, rfl⟩ := exists_kept hx (hsums.suffix (stays_sums _ mid))
      have hshort : ys.length < ws.length := by simpa using hright.shorter
      exact (givesOn_sums_cons htag).2
        ⟨right, _, gives_term_local ws hy hright, givesOn_sums_local _ ys hx hsums⟩
termination_by 4 * ws.length

theorem gives_term_local (ws : List Token) {xs : List Token} {v : Term} (hx : xs ≠ [])
    (h : Gives (term (ws ++ suf)) v (xs ++ suf)) : Gives (term (ws ++ suf')) v (xs ++ suf') := by
  obtain ⟨first, mid, hfirst, hproducts⟩ := gives_term.1 h
  obtain ⟨ys, hy, rfl⟩ := exists_kept hx (hproducts.suffix (stays_products first mid))
  have hshort : ys.length < ws.length := by simpa using hfirst.shorter
  exact gives_term.2
    ⟨first, _, gives_factor_local ws hy hfirst, givesOn_products_local first ys hx hproducts⟩
termination_by 4 * ws.length + 1

theorem givesOn_products_local (left : Term) (ws : List Token) {xs : List Token} {v : Term}
    (hx : xs ≠ []) (h : GivesOn (products left (ws ++ suf)) v (xs ++ suf)) :
    GivesOn (products left (ws ++ suf')) v (xs ++ suf') := by
  match ws with
  | [] => exact absurd (h.suffix (stays_products left _)) (not_kept_suffix hx)
  | t :: ws =>
    cases htag : productTag? t with
    | none =>
      have hend : ∀ suf, ∀ u ∈ (t :: ws ++ suf).head?, productTag? u = none :=
        fun _ => forall_head_cons htag
      obtain ⟨rfl, he⟩ := (givesOn_products_of_none (hend suf)).1 h
      obtain rfl := List.append_cancel_right he
      exact (givesOn_products_of_none (hend suf')).2 ⟨rfl, rfl⟩
    | some tag =>
      obtain ⟨right, mid, hright, hproducts⟩ := (givesOn_products_cons htag).1 h
      obtain ⟨ys, hy, rfl⟩ := exists_kept hx (hproducts.suffix (stays_products _ mid))
      have hshort : ys.length < ws.length := by simpa using hright.shorter
      exact (givesOn_products_cons htag).2
        ⟨right, _, gives_factor_local ws hy hright, givesOn_products_local _ ys hx hproducts⟩
termination_by 4 * ws.length

theorem gives_factor_local (ws : List Token) {xs : List Token} {v : Term} (hx : xs ≠ [])
    (h : Gives (factor (ws ++ suf)) v (xs ++ suf)) :
    Gives (factor (ws ++ suf')) v (xs ++ suf') := by
  match ws with
  | [] => exact absurd (h.suffix (stays_factor _)) (not_kept_suffix hx)
  | t :: ws =>
    by_cases hminus : t.image = "-"
    · obtain ⟨w, rfl, hw⟩ := (gives_factor_minus hminus).1 h
      exact (gives_factor_minus hminus).2 ⟨w, rfl, gives_factor_local ws hx hw⟩
    by_cases hopen : t.image = "("
    · obtain ⟨c, hc, hinner⟩ := (gives_factor_group hopen).1 h
      have hinner := gives_expression_local ws (List.cons_ne_nil c xs) hinner
      exact (gives_factor_group hopen).2 ⟨c, hc, hinner⟩
    by_cases hvec : t.image = "["
    · obtain ⟨vs, rfl, hvs⟩ := (gives_factor_vector hvec).1 h
      exact (gives_factor_vector hvec).2 ⟨vs, rfl, gives_arguments_local ws hx hvs⟩
    have hno : t.image ∉ openers := by simp [openers, hminus, hopen, hvec]
    by_cases hconst : t.kind = .constant
    · obtain ⟨x, hnumber, rfl, he⟩ := (gives_factor_constant hno hconst).1 h
      obtain rfl := List.append_cancel_right he
      exact (gives_factor_constant hno hconst).2 ⟨x, hnumber, rfl, rfl⟩
    by_cases hsym : t.kind = .symbol
    · by_cases hname : t.image = ""
      · rw [List.cons_append, factor_nameless hsym hname] at h
        exact absurd h not_yields_error
      match ws with
      | [] =>
        have hlength := h.shorter
        have hpos := List.length_pos_iff.2 hx
        simp only [List.length_append, List.length_cons, List.length_nil] at hlength
        omega
      | o :: ws =>
        by_cases ho : o.image = "("
        · obtain ⟨vs, rfl, hvs⟩ := (gives_factor_call hno hsym hname ho).1 h
          exact (gives_factor_call hno hsym hname ho).2 ⟨vs, rfl, gives_arguments_local ws hx hvs⟩
        · have hcall : ∀ suf, ∀ u ∈ (o :: ws ++ suf).head?, u.image ≠ "(" :=
            fun _ => forall_head_cons ho
          obtain ⟨rfl, he⟩ := (gives_factor_symbol hno hsym hname (hcall suf)).1 h
          obtain rfl := List.append_cancel_right he
          exact (gives_factor_symbol hno hsym hname (hcall suf')).2 ⟨rfl, rfl⟩
    · exact absurd h (not_gives_factor hno hconst hsym)
termination_by 4 * ws.length

theorem gives_arguments_local (ws : List Token) {closer : String} {xs : List Token}
    {vs : List Term} (hx : xs ≠ [])
    (h : Gives (arguments closer (ws ++ suf)) vs (xs ++ suf)) :
    Gives (arguments closer (ws ++ suf')) vs (xs ++ suf') := by
  obtain ⟨first, mid, hfirst, others, rfl, hothers⟩ := gives_arguments.1 h
  obtain ⟨ys, hy, rfl⟩ := exists_kept hx (hothers.suffix (stays_moreArguments closer mid))
  have hshort : ys.length < ws.length := by simpa using hfirst.shorter
  refine gives_arguments.2 ⟨first, _, gives_expression_local ws hy hfirst, others, rfl, ?_⟩
  match ys with
  | [] => exact absurd rfl hy
  | c :: ys =>
    by_cases hcomma : c.image = ","
    · have hmore := (gives_moreArguments_comma hcomma).1 hothers
      have hshort : ys.length < ws.length := Nat.lt_of_succ_lt hshort
      exact (gives_moreArguments_comma hcomma).2 (gives_arguments_local ys hx hmore)
    · have hend : ∀ suf, ∀ u ∈ (c :: ys ++ suf).head?, u.image ≠ "," :=
        fun _ => forall_head_cons hcomma
      obtain ⟨rfl, _, hc, he⟩ := (gives_moreArguments_of_not_comma (hend suf)).1 hothers
      obtain ⟨rfl, htail⟩ := List.cons.inj he
      obtain rfl := List.append_cancel_right htail
      exact (gives_moreArguments_of_not_comma (hend suf')).2 ⟨rfl, _, hc, rfl⟩
termination_by 4 * ws.length + 3

end

/-! ## Where reading is refused -/

-- The recursion is the same. What is given before the refusal has been dealt with above.
mutual

theorem refuses_expression_local (ws : List Token) {xs : List Token} (hx : xs ≠ [])
    (h : Refuses (expression (ws ++ suf)) (xs ++ suf)) :
    Refuses (expression (ws ++ suf')) (xs ++ suf') := by
  obtain hterm | ⟨first, mid, hfirst, hsums⟩ := refuses_expression.1 h
  · exact refuses_expression.2 (.inl (refuses_term_local ws hx hterm))
  · obtain ⟨ys, hy, rfl⟩ := exists_kept hx (hsums.suffix (stays_sums first mid))
    have hshort : ys.length < ws.length := by simpa using hfirst.shorter
    exact refuses_expression.2
      (.inr ⟨first, _, gives_term_local ws hy hfirst, refuses_sums_local first ys hx hsums⟩)
termination_by 4 * ws.length + 2

theorem refuses_sums_local (left : Term) (ws : List Token) {xs : List Token} (hx : xs ≠ [])
    (h : Refuses (sums left (ws ++ suf)) (xs ++ suf)) :
    Refuses (sums left (ws ++ suf')) (xs ++ suf') := by
  match ws with
  | [] => exact absurd (h.suffix (stays_sums left _)) (not_kept_suffix hx)
  | t :: ws =>
    cases htag : sumTag? t with
    | none =>
      exact absurd h (not_refuses_sums_of_none (forall_head_cons htag))
    | some tag =>
      obtain hterm | ⟨right, mid, hright, hsums⟩ := (refuses_sums_cons htag).1 h
      · exact (refuses_sums_cons htag).2 (.inl (refuses_term_local ws hx hterm))
      · obtain ⟨ys, hy, rfl⟩ := exists_kept hx (hsums.suffix (stays_sums _ mid))
        have hshort : ys.length < ws.length := by simpa using hright.shorter
        exact (refuses_sums_cons htag).2
          (.inr ⟨right, _, gives_term_local ws hy hright, refuses_sums_local _ ys hx hsums⟩)
termination_by 4 * ws.length

theorem refuses_term_local (ws : List Token) {xs : List Token} (hx : xs ≠ [])
    (h : Refuses (term (ws ++ suf)) (xs ++ suf)) : Refuses (term (ws ++ suf')) (xs ++ suf') := by
  obtain hfactor | ⟨first, mid, hfirst, hproducts⟩ := refuses_term.1 h
  · exact refuses_term.2 (.inl (refuses_factor_local ws hx hfactor))
  · obtain ⟨ys, hy, rfl⟩ := exists_kept hx (hproducts.suffix (stays_products first mid))
    have hshort : ys.length < ws.length := by simpa using hfirst.shorter
    exact refuses_term.2 (.inr
      ⟨first, _, gives_factor_local ws hy hfirst, refuses_products_local first ys hx hproducts⟩)
termination_by 4 * ws.length + 1

theorem refuses_products_local (left : Term) (ws : List Token) {xs : List Token} (hx : xs ≠ [])
    (h : Refuses (products left (ws ++ suf)) (xs ++ suf)) :
    Refuses (products left (ws ++ suf')) (xs ++ suf') := by
  match ws with
  | [] => exact absurd (h.suffix (stays_products left _)) (not_kept_suffix hx)
  | t :: ws =>
    cases htag : productTag? t with
    | none =>
      exact absurd h (not_refuses_products_of_none (forall_head_cons htag))
    | some tag =>
      obtain hfactor | ⟨right, mid, hright, hproducts⟩ := (refuses_products_cons htag).1 h
      · exact (refuses_products_cons htag).2 (.inl (refuses_factor_local ws hx hfactor))
      · obtain ⟨ys, hy, rfl⟩ := exists_kept hx (hproducts.suffix (stays_products _ mid))
        have hshort : ys.length < ws.length := by simpa using hright.shorter
        exact (refuses_products_cons htag).2 (.inr
          ⟨right, _, gives_factor_local ws hy hright, refuses_products_local _ ys hx hproducts⟩)
termination_by 4 * ws.length

theorem refuses_factor_local (ws : List Token) {xs : List Token} (hx : xs ≠ [])
    (h : Refuses (factor (ws ++ suf)) (xs ++ suf)) :
    Refuses (factor (ws ++ suf')) (xs ++ suf') := by
  match ws with
  | [] => exact absurd (h.suffix (stays_factor _)) (not_kept_suffix hx)
  | t :: ws =>
    by_cases hminus : t.image = "-"
    · have hoperand := (refuses_factor_minus hminus).1 h
      exact (refuses_factor_minus hminus).2 (refuses_factor_local ws hx hoperand)
    by_cases hopen : t.image = "("
    · obtain hinner | ⟨v, hinner, hmiss⟩ := (refuses_factor_group hopen).1 h
      · exact (refuses_factor_group hopen).2 (.inl (refuses_expression_local ws hx hinner))
      · have hmiss' : Misses ")" (xs ++ suf') := by
          obtain ⟨x, xs, rfl⟩ := List.exists_cons_of_ne_nil hx
          exact hmiss
        exact (refuses_factor_group hopen).2
          (.inr ⟨v, gives_expression_local ws hx hinner, hmiss'⟩)
    by_cases hvec : t.image = "["
    · have hargs := (refuses_factor_vector hvec).1 h
      exact (refuses_factor_vector hvec).2 (refuses_arguments_local ws hx hargs)
    have hno : t.image ∉ openers := by simp [openers, hminus, hopen, hvec]
    by_cases hconst : t.kind = .constant
    · exact absurd h (not_refuses_factor_constant hno hconst)
    by_cases hsym : t.kind = .symbol
    · by_cases hname : t.image = ""
      · rw [List.cons_append, factor_nameless hsym hname] at h
        obtain ⟨_, h⟩ := h
        cases h
      by_cases hcall : ∀ o ∈ (ws ++ suf).head?, o.image ≠ "("
      · exact absurd h (not_refuses_factor_symbol hno hsym hname hcall)
      match ws with
      | [] =>
        obtain ⟨o, ts, rfl, ho⟩ := exists_head_of_not hcall
        have hargs := (refuses_factor_call hno hsym hname (not_not.1 ho)).1 h
        have hlength := (hargs.suffix (stays_arguments ")" ts)).length_le
        simp only [List.length_append, List.length_cons] at hlength
        omega
      | o :: ws =>
        by_cases ho : o.image = "("
        · have hargs := (refuses_factor_call hno hsym hname ho).1 h
          exact (refuses_factor_call hno hsym hname ho).2 (refuses_arguments_local ws hx hargs)
        · exact absurd (forall_head_cons ho) hcall
    · have he : xs ++ suf = t :: ws ++ suf := (refuses_factor_other hno hconst hsym).1 h
      obtain rfl := List.append_cancel_right he
      exact (refuses_factor_other hno hconst hsym).2 rfl
termination_by 4 * ws.length

theorem refuses_arguments_local (ws : List Token) {closer : String} {xs : List Token}
    (hx : xs ≠ [])
    (h : Refuses (arguments closer (ws ++ suf)) (xs ++ suf)) :
    Refuses (arguments closer (ws ++ suf')) (xs ++ suf') := by
  obtain hfirst | ⟨first, mid, hfirst, hothers⟩ := refuses_arguments.1 h
  · exact refuses_arguments.2 (.inl (refuses_expression_local ws hx hfirst))
  · obtain ⟨ys, hy, rfl⟩ := exists_kept hx (hothers.suffix (stays_moreArguments closer mid))
    have hshort : ys.length < ws.length := by simpa using hfirst.shorter
    refine refuses_arguments.2 (.inr ⟨first, _, gives_expression_local ws hy hfirst, ?_⟩)
    match ys with
    | [] => exact absurd rfl hy
    | c :: ys =>
      by_cases hcomma : c.image = ","
      · have hmore := (refuses_moreArguments_comma hcomma).1 hothers
        have hshort : ys.length < ws.length := Nat.lt_of_succ_lt hshort
        exact (refuses_moreArguments_comma hcomma).2 (refuses_arguments_local ys hx hmore)
      · have hend : ∀ suf, ∀ u ∈ (c :: ys ++ suf).head?, u.image ≠ "," :=
          fun _ => forall_head_cons hcomma
        obtain ⟨he, hmiss⟩ := (refuses_moreArguments_of_not_comma (hend suf)).1 hothers
        obtain rfl := List.append_cancel_right he
        exact (refuses_moreArguments_of_not_comma (hend suf')).2 ⟨rfl, hmiss⟩
termination_by 4 * ws.length + 3

end

end TermCalc.Parser
