import TermCalc.Proofs.Term.Parser
import TermCalc.Proofs.Term.Rejection

/-!
# What has been read can be completed

Where a reading function refuses its tokens, those in front of that place can be continued to
something that the grammar derives. What is missing is an operand and the brackets that are still
open.

## Main definitions

* `Grammar.Viable P us`: the tokens `us` can be continued to something that `P` derives

## Main results

* `Parser.expression_viable`, `Parser.factor_viable`, …: what a reading function has passed when it
  refuses
-/

namespace TermCalc

namespace Grammar

variable {α β : Type} {P : List Token → α → Prop} {Q : List Token → β → Prop} {us vs : List Token}
  {t : Token} {mark tag : String}

/-- The tokens can be continued, by tokens that a text may have, to something that is derived. -/
def Viable (P : List Token → α → Prop) (us : List Token) : Prop :=
  ∃ more v, (∀ t ∈ more, t.Lexical) ∧ P (us ++ more) v

theorem Viable.of {v : α} (h : P us v) : Viable P us :=
  ⟨[], v, (fun _ ht => nomatch ht), by rwa [List.append_nil]⟩

/-- A continuation with more tokens behind it. -/
theorem Viable.behind (last : List Token) (hlast : ∀ t ∈ last, t.Lexical) (h : Viable P us)
    (hpq : ∀ more v, P (us ++ more) v → ∃ w, Q (vs ++ (more ++ last)) w) : Viable Q vs := by
  obtain ⟨more, v, hmore, hp⟩ := h
  obtain ⟨w, hq⟩ := hpq more v hp
  exact ⟨more ++ last, w, List.forall_mem_append.2 ⟨hmore, hlast⟩, hq⟩

theorem Viable.imp (h : Viable P us) (hpq : ∀ more v, P (us ++ more) v → ∃ w, Q (vs ++ more) w) :
    Viable Q vs :=
  h.behind [] (fun _ ht => nomatch ht) (by simpa only [List.append_nil] using hpq)

/-! ## Tokens to continue with -/

/-- An operator or bracket as it stands in a text. -/
def markToken (mark : String) : Token :=
  ⟨.operator, mark, 0⟩

theorem is_markToken (mark : String) : (markToken mark).Is mark :=
  ⟨rfl, rfl⟩

theorem lexical_markToken (mark : String) : (markToken mark).Lexical :=
  ⟨fun _ => rfl, (fun hk => nomatch hk), fun hk => nomatch hk⟩

/-- A symbol that can stand for any operand. -/
def operandToken : Token :=
  ⟨.symbol, "x", 0⟩

theorem lexical_operandToken : operandToken.Lexical :=
  ⟨fun hm => absurd hm (by decide), fun _ => (by decide), fun hk => nomatch hk⟩

theorem viable_factor_nil : Viable Factor [] :=
  ⟨[operandToken], _, List.forall_mem_singleton.2 lexical_operandToken, .symbol rfl⟩

/-! ## Parts of what is derived -/

theorem Viable.negation (ht : t.Is "-") (h : Viable Factor us) : Viable Factor (t :: us) :=
  h.imp fun _ _ h => ⟨_, .negation ht h⟩

theorem Viable.group (ht : t.Is "(") (h : Viable Expression us) : Viable Factor (t :: us) := by
  refine h.behind [markToken ")"] (List.forall_mem_singleton.2 (lexical_markToken _)) ?_
  intro more v h
  have hgroup := Factor.group ht h (is_markToken ")")
  rw [List.cons_append, List.append_assoc] at hgroup
  exact ⟨_, hgroup⟩

theorem Viable.vector (ht : t.Is "[") (h : Viable Arguments us) : Viable Factor (t :: us) := by
  refine h.behind [markToken "]"] (List.forall_mem_singleton.2 (lexical_markToken _)) ?_
  intro more vs h
  have hvector := Factor.vector ht h (is_markToken "]")
  rw [List.cons_append, List.append_assoc] at hvector
  exact ⟨_, hvector⟩

theorem Viable.call {o : Token} (hk : t.kind = .symbol) (ho : o.Is "(") (h : Viable Arguments us) :
    Viable Factor (t :: o :: us) := by
  refine h.behind [markToken ")"] (List.forall_mem_singleton.2 (lexical_markToken _)) ?_
  intro more vs h
  have hcall := Factor.call hk ho h (is_markToken ")")
  rw [List.cons_append, List.cons_append, List.append_assoc] at hcall
  exact ⟨_, hcall⟩

theorem Viable.product {ls : List Token} {l : Term} (hl : Product ls l) (ht : t.Is mark)
    (hm : (mark, tag) ∈ productTags) (h : Viable Factor us) : Viable Product (ls ++ t :: us) :=
  h.imp fun more r h => by
    rw [List.append_assoc, List.cons_append]
    exact ⟨_, .product hl ht hm h⟩

theorem Viable.sum {ls : List Token} {l : Term} (hl : Expression ls l) (ht : t.Is mark)
    (hm : (mark, tag) ∈ sumTags) (h : Viable Product us) : Viable Expression (ls ++ t :: us) :=
  h.imp fun more r h => by
    rw [List.append_assoc, List.cons_append]
    exact ⟨_, .sum hl ht hm h⟩

theorem Viable.more {ls : List Token} {l : Term} (hl : Expression ls l) (ht : t.Is ",")
    (h : Viable Arguments us) : Viable Arguments (ls ++ t :: us) :=
  h.imp fun more rs h => by
    rw [List.append_assoc, List.cons_append]
    exact ⟨_, .more hl ht h⟩

end Grammar

namespace Parser

open Grammar

/-! ## What has been passed when reading is refused -/

mutual

theorem expression_viable (ts : List Token) {rest : List Token} (hl : ∀ t ∈ ts, t.Lexical)
    (h : Refuses (expression ts) rest) : ∃ us, ts = us ++ rest ∧ Viable Expression us := by
  obtain hterm | ⟨first, mid, hfirst, hsums⟩ := refuses_expression.1 h
  · obtain ⟨us, rfl, hp⟩ := term_viable ts hl hterm
    exact ⟨us, rfl, hp.imp fun _ v h => ⟨v, .product h⟩⟩
  · have hshort := hfirst.shorter
    obtain ⟨us, rfl, hp⟩ := term_sound ts hl hfirst
    obtain ⟨vs, rfl, he⟩ := sums_viable first mid (List.forall_mem_append.1 hl).2 hsums
    exact ⟨us ++ vs, (List.append_assoc _ _ _).symm, he us (.product hp)⟩
termination_by 4 * ts.length + 2

theorem sums_viable (left : Term) (ts : List Token) {rest : List Token}
    (hl : ∀ t ∈ ts, t.Lexical) (h : Refuses (sums left ts) rest) :
    ∃ us, ts = us ++ rest ∧ ∀ ls, Expression ls left → Viable Expression (ls ++ us) := by
  by_cases hend : ∀ t ∈ ts.head?, sumTag? t = none
  · exact absurd h (not_refuses_sums_of_none hend)
  · obtain ⟨t, ts, rfl, htag⟩ := exists_head_of_not hend
    obtain ⟨tag, htag⟩ := Option.ne_none_iff_exists'.1 htag
    obtain ⟨ht, hts⟩ := List.forall_mem_cons.1 hl
    have hmem := sumTag?_eq_some_iff.1 htag
    have ht := ht.is rfl (mem_marks_of_mem_sumTags hmem)
    obtain hterm | ⟨right, mid, hright, hsums⟩ := (refuses_sums_cons htag).1 h
    · obtain ⟨us, rfl, hp⟩ := term_viable ts hts hterm
      exact ⟨t :: us, rfl, fun ls hls => hp.sum hls ht hmem⟩
    · have hshort := hright.shorter
      obtain ⟨us, rfl, hp⟩ := term_sound ts hts hright
      obtain ⟨vs, rfl, he⟩ := sums_viable _ mid (List.forall_mem_append.1 hts).2 hsums
      refine ⟨t :: us ++ vs, by simp, fun ls hls => ?_⟩
      have hsum := he _ (.sum hls ht hmem hp)
      rwa [List.append_assoc] at hsum
termination_by 4 * ts.length

theorem term_viable (ts : List Token) {rest : List Token} (hl : ∀ t ∈ ts, t.Lexical)
    (h : Refuses (term ts) rest) : ∃ us, ts = us ++ rest ∧ Viable Product us := by
  obtain hfactor | ⟨first, mid, hfirst, hproducts⟩ := refuses_term.1 h
  · obtain ⟨us, rfl, hf⟩ := factor_viable ts hl hfactor
    exact ⟨us, rfl, hf.imp fun _ v h => ⟨v, .factor h⟩⟩
  · have hshort := hfirst.shorter
    obtain ⟨us, rfl, hf⟩ := factor_sound ts hl hfirst
    obtain ⟨vs, rfl, hp⟩ := products_viable first mid (List.forall_mem_append.1 hl).2 hproducts
    exact ⟨us ++ vs, (List.append_assoc _ _ _).symm, hp us (.factor hf)⟩
termination_by 4 * ts.length + 1

theorem products_viable (left : Term) (ts : List Token) {rest : List Token}
    (hl : ∀ t ∈ ts, t.Lexical) (h : Refuses (products left ts) rest) :
    ∃ us, ts = us ++ rest ∧ ∀ ls, Product ls left → Viable Product (ls ++ us) := by
  by_cases hend : ∀ t ∈ ts.head?, productTag? t = none
  · exact absurd h (not_refuses_products_of_none hend)
  · obtain ⟨t, ts, rfl, htag⟩ := exists_head_of_not hend
    obtain ⟨tag, htag⟩ := Option.ne_none_iff_exists'.1 htag
    obtain ⟨ht, hts⟩ := List.forall_mem_cons.1 hl
    have hmem := productTag?_eq_some_iff.1 htag
    have ht := ht.is rfl (mem_marks_of_mem_productTags hmem)
    obtain hfactor | ⟨right, mid, hright, hproducts⟩ := (refuses_products_cons htag).1 h
    · obtain ⟨us, rfl, hf⟩ := factor_viable ts hts hfactor
      exact ⟨t :: us, rfl, fun ls hls => hf.product hls ht hmem⟩
    · have hshort := hright.shorter
      obtain ⟨us, rfl, hf⟩ := factor_sound ts hts hright
      obtain ⟨vs, rfl, hp⟩ := products_viable _ mid (List.forall_mem_append.1 hts).2 hproducts
      refine ⟨t :: us ++ vs, by simp, fun ls hls => ?_⟩
      have hproduct := hp _ (.product hls ht hmem hf)
      rwa [List.append_assoc] at hproduct
termination_by 4 * ts.length

theorem factor_viable (ts : List Token) {rest : List Token} (hl : ∀ t ∈ ts, t.Lexical)
    (h : Refuses (factor ts) rest) : ∃ us, ts = us ++ rest ∧ Viable Factor us := by
  match ts with
  | [] => exact ⟨[], (refuses_factor_nil.1 h).symm, viable_factor_nil⟩
  | t :: ts =>
    obtain ⟨ht, hts⟩ := List.forall_mem_cons.1 hl
    by_cases hminus : t.image = "-"
    · obtain ⟨us, rfl, hf⟩ := factor_viable ts hts ((refuses_factor_minus hminus).1 h)
      exact ⟨t :: us, rfl, hf.negation (ht.is hminus (by decide))⟩
    by_cases hopen : t.image = "("
    · have ht := ht.is hopen (by decide)
      obtain hinner | ⟨v, hinner, -⟩ := (refuses_factor_group hopen).1 h
      · obtain ⟨us, rfl, he⟩ := expression_viable ts hts hinner
        exact ⟨t :: us, rfl, he.group ht⟩
      · obtain ⟨us, rfl, he⟩ := expression_sound ts hts hinner
        exact ⟨t :: us, rfl, (Viable.of he).group ht⟩
    by_cases hvec : t.image = "["
    · obtain ⟨us, rfl, ha⟩ := arguments_viable ts hts ((refuses_factor_vector hvec).1 h)
      exact ⟨t :: us, rfl, ha.vector (ht.is hvec (by decide))⟩
    have hno : t.image ∉ openers := by simp [openers, hminus, hopen, hvec]
    by_cases hconst : t.kind = .constant
    · exact absurd h (not_refuses_factor_constant hno hconst)
    by_cases hsym : t.kind = .symbol
    · by_cases hcall : ∀ o ∈ ts.head?, o.image ≠ "("
      · exact absurd h (not_refuses_factor_symbol hno hsym (ht.named hsym) hcall)
      · obtain ⟨o, ts, rfl, ho⟩ := exists_head_of_not hcall
        have ho := not_not.1 ho
        obtain ⟨hol, hts⟩ := List.forall_mem_cons.1 hts
        have hargs := (refuses_factor_call hno hsym (ht.named hsym) ho).1 h
        obtain ⟨us, rfl, ha⟩ := arguments_viable ts hts hargs
        exact ⟨t :: o :: us, rfl, ha.call hsym (hol.is ho (by decide))⟩
    · exact ⟨[], ((refuses_factor_other hno hconst hsym).1 h).symm, viable_factor_nil⟩
termination_by 4 * ts.length

theorem arguments_viable (ts : List Token) {closer : String} {rest : List Token}
    (hl : ∀ t ∈ ts, t.Lexical) (h : Refuses (arguments closer ts) rest) :
    ∃ us, ts = us ++ rest ∧ Viable Arguments us := by
  obtain hfirst | ⟨first, mid, hfirst, hothers⟩ := refuses_arguments.1 h
  · obtain ⟨us, rfl, he⟩ := expression_viable ts hl hfirst
    exact ⟨us, rfl, he.imp fun _ v h => ⟨[v], .one h⟩⟩
  · have hshort := hfirst.shorter
    obtain ⟨us, rfl, he⟩ := expression_sound ts hl hfirst
    have hmid := (List.forall_mem_append.1 hl).2
    by_cases hend : ∀ t ∈ mid.head?, t.image ≠ ","
    · obtain ⟨rfl, -⟩ := (refuses_moreArguments_of_not_comma hend).1 hothers
      exact ⟨us, rfl, Viable.of (.one he)⟩
    · obtain ⟨t, mid, rfl, ht⟩ := exists_head_of_not hend
      have ht := not_not.1 ht
      obtain ⟨htl, hmid⟩ := List.forall_mem_cons.1 hmid
      obtain ⟨vs, rfl, ha⟩ := arguments_viable mid hmid ((refuses_moreArguments_comma ht).1 hothers)
      exact ⟨us ++ t :: vs, by simp, ha.more he (htl.is ht (by decide))⟩
termination_by 4 * ts.length + 3

end

end Parser

end TermCalc
