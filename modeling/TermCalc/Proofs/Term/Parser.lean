import TermCalc.Proofs.Term.Grammar
import TermCalc.Proofs.Term.Reading
import TermCalc.Proofs.Token.Lexemes
import TermCalc.Term.Reader

/-!
# The parser accepts the grammar

On the significant tokens of a text the parser returns a term exactly when the grammar derives the
tokens as a statement that stands for the term. Each reading function is sound: what it has read is
derived by its rule. Each is complete as well: it reads what its rule derives, whatever follows, as
long as what follows cannot be read on.

## Main definitions

* `Parser.EndsFactor rest`, `Parser.EndsProduct rest`: what cannot be read on after a symbol, after
  a product

## Main results

* `Parser.expression_sound`, `Parser.expression_complete`: expressions
* `Parser.gives_statement_iff`: a statement that leaves nothing is a statement of the grammar
* `Term.parse?_eq_ok_iff_statement`: the same from the text on, with one term for each statement
-/

namespace TermCalc

open Grammar

/-! ## Marks -/

namespace Token.Lexical

variable {t : Token} {mark : String}

theorem is (h : t.Lexical) (hi : t.image = mark) (hm : mark ∈ marks) : t.Is mark :=
  ⟨h.operator (hi ▸ hm), hi⟩

/-- Constants and symbols do not look like what begins a factor by itself. -/
theorem not_mem_openers (h : t.Lexical) (hk : t.kind ≠ .operator) : t.image ∉ Parser.openers := by
  have hsub : ∀ mark ∈ Parser.openers, mark ∈ marks := by decide
  exact fun ho => hk (h.operator (hsub _ ho))

end Token.Lexical

namespace Parser

variable {t : Token} {tag : String} {ts us rest : List Token} {v w : Term}

theorem sumTag?_eq_some_iff : sumTag? t = some tag ↔ (t.image, tag) ∈ sumTags := by
  simp only [sumTag?, sumTags, List.mem_cons, List.not_mem_nil, or_false, Prod.mk.injEq]
  by_cases hp : t.image = "+"
  · simp [hp, eq_comm]
  · by_cases hm : t.image = "-"
    · simp [hm, eq_comm]
    · simp [hp, hm]

theorem productTag?_eq_some_iff : productTag? t = some tag ↔ (t.image, tag) ∈ productTags := by
  simp only [productTag?, productTags, List.mem_cons, List.not_mem_nil, or_false, Prod.mk.injEq]
  by_cases hm : t.image = "*"
  · simp [hm, eq_comm]
  · by_cases hd : t.image = "/"
    · simp [hd, eq_comm]
    · by_cases hr : t.image = "%"
      · simp [hr, eq_comm]
      · simp [hm, hd, hr]

theorem mem_marks_of_mem_sumTags {mark tag : String} (h : (mark, tag) ∈ sumTags) :
    mark ∈ Token.marks := by
  have hall : ∀ p ∈ sumTags, p.1 ∈ Token.marks := by decide
  exact hall _ h

theorem mem_marks_of_mem_productTags {mark tag : String} (h : (mark, tag) ∈ productTags) :
    mark ∈ Token.marks := by
  have hall : ∀ p ∈ productTags, p.1 ∈ Token.marks := by decide
  exact hall _ h

/-- A list whose head fails a condition has a head. -/
theorem exists_head_of_not {P : Token → Prop} (h : ¬ ∀ t ∈ ts.head?, P t) :
    ∃ t us, ts = t :: us ∧ ¬ P t := by
  cases ts with
  | nil => exact absurd (fun t ht => nomatch ht) h
  | cons t us =>
    refine ⟨t, us, rfl, fun ht => h fun u hu => ?_⟩
    obtain rfl := Option.some.inj hu
    exact ht

/-! ## Soundness -/

-- The recursion of the reading functions carries the induction: each rest is shorter than its list.
mutual

theorem expression_sound (ts : List Token) {v : Term} {rest : List Token}
    (hl : ∀ t ∈ ts, t.Lexical) (h : Gives (expression ts) v rest) :
    ∃ us, ts = us ++ rest ∧ Expression us v := by
  obtain ⟨first, mid, hfirst, hall⟩ := gives_expression.1 h
  have hshort := hfirst.shorter
  obtain ⟨us, rfl, hp⟩ := term_sound ts hl hfirst
  obtain ⟨vs, rfl, he⟩ := sums_sound first mid (List.forall_mem_append.1 hl).2 hall
  exact ⟨us ++ vs, (List.append_assoc _ _ _).symm, he us (.product hp)⟩
termination_by 4 * ts.length + 2

/-- What is read on after an expression makes an expression with it. -/
theorem sums_sound (left : Term) (ts : List Token) {v : Term} {rest : List Token}
    (hl : ∀ t ∈ ts, t.Lexical) (h : GivesOn (sums left ts) v rest) :
    ∃ us, ts = us ++ rest ∧ ∀ ls, Expression ls left → Expression (ls ++ us) v := by
  by_cases hend : ∀ t ∈ ts.head?, sumTag? t = none
  · obtain ⟨rfl, rfl⟩ := (givesOn_sums_of_none hend).1 h
    exact ⟨[], rfl, fun ls hls => by rw [List.append_nil]; exact hls⟩
  · obtain ⟨t, ts, rfl, htag⟩ := exists_head_of_not hend
    obtain ⟨tag, htag⟩ := Option.ne_none_iff_exists'.1 htag
    obtain ⟨right, mid, hright, hall⟩ := (givesOn_sums_cons htag).1 h
    have hshort := hright.shorter
    obtain ⟨ht, hts⟩ := List.forall_mem_cons.1 hl
    obtain ⟨us, rfl, hp⟩ := term_sound ts hts hright
    obtain ⟨vs, rfl, he⟩ := sums_sound _ mid (List.forall_mem_append.1 hts).2 hall
    have hmem := sumTag?_eq_some_iff.1 htag
    refine ⟨t :: us ++ vs, by simp, fun ls hls => ?_⟩
    have hsum := he _ (.sum hls (ht.is rfl (mem_marks_of_mem_sumTags hmem)) hmem hp)
    rwa [List.append_assoc] at hsum
termination_by 4 * ts.length

theorem term_sound (ts : List Token) {v : Term} {rest : List Token}
    (hl : ∀ t ∈ ts, t.Lexical) (h : Gives (term ts) v rest) :
    ∃ us, ts = us ++ rest ∧ Product us v := by
  obtain ⟨first, mid, hfirst, hall⟩ := gives_term.1 h
  have hshort := hfirst.shorter
  obtain ⟨us, rfl, hf⟩ := factor_sound ts hl hfirst
  obtain ⟨vs, rfl, hp⟩ := products_sound first mid (List.forall_mem_append.1 hl).2 hall
  exact ⟨us ++ vs, (List.append_assoc _ _ _).symm, hp us (.factor hf)⟩
termination_by 4 * ts.length + 1

/-- What is read on after a product makes a product with it. -/
theorem products_sound (left : Term) (ts : List Token) {v : Term} {rest : List Token}
    (hl : ∀ t ∈ ts, t.Lexical) (h : GivesOn (products left ts) v rest) :
    ∃ us, ts = us ++ rest ∧ ∀ ls, Product ls left → Product (ls ++ us) v := by
  by_cases hend : ∀ t ∈ ts.head?, productTag? t = none
  · obtain ⟨rfl, rfl⟩ := (givesOn_products_of_none hend).1 h
    exact ⟨[], rfl, fun ls hls => by rw [List.append_nil]; exact hls⟩
  · obtain ⟨t, ts, rfl, htag⟩ := exists_head_of_not hend
    obtain ⟨tag, htag⟩ := Option.ne_none_iff_exists'.1 htag
    obtain ⟨right, mid, hright, hall⟩ := (givesOn_products_cons htag).1 h
    have hshort := hright.shorter
    obtain ⟨ht, hts⟩ := List.forall_mem_cons.1 hl
    obtain ⟨us, rfl, hf⟩ := factor_sound ts hts hright
    obtain ⟨vs, rfl, hp⟩ := products_sound _ mid (List.forall_mem_append.1 hts).2 hall
    have hmem := productTag?_eq_some_iff.1 htag
    refine ⟨t :: us ++ vs, by simp, fun ls hls => ?_⟩
    have hproduct := hp _ (.product hls (ht.is rfl (mem_marks_of_mem_productTags hmem)) hmem hf)
    rwa [List.append_assoc] at hproduct
termination_by 4 * ts.length

theorem factor_sound (ts : List Token) {v : Term} {rest : List Token}
    (hl : ∀ t ∈ ts, t.Lexical) (h : Gives (factor ts) v rest) :
    ∃ us, ts = us ++ rest ∧ Factor us v := by
  match ts with
  | [] => exact absurd h not_gives_factor_nil
  | t :: ts =>
    obtain ⟨ht, hts⟩ := List.forall_mem_cons.1 hl
    by_cases hminus : t.image = "-"
    · obtain ⟨w, rfl, hw⟩ := (gives_factor_minus hminus).1 h
      obtain ⟨us, rfl, hf⟩ := factor_sound ts hts hw
      exact ⟨t :: us, rfl, .negation (ht.is hminus (by decide)) hf⟩
    by_cases hopen : t.image = "("
    · obtain ⟨c, hc, hv⟩ := (gives_factor_group hopen).1 h
      obtain ⟨us, rfl, he⟩ := expression_sound ts hts hv
      have hcl := hts c (by simp)
      exact ⟨t :: us ++ [c], by simp,
        .group (ht.is hopen (by decide)) he (hcl.is hc (by decide))⟩
    by_cases hvec : t.image = "["
    · obtain ⟨vs, rfl, hvs⟩ := (gives_factor_vector hvec).1 h
      obtain ⟨us, c, rfl, hc, ha⟩ := arguments_sound ts hts hvs
      have hcl := hts c (by simp)
      exact ⟨t :: us ++ [c], by simp,
        .vector (ht.is hvec (by decide)) ha (hcl.is hc (by decide))⟩
    have hno : t.image ∉ openers := by simp [openers, hminus, hopen, hvec]
    by_cases hconst : t.kind = .constant
    · obtain ⟨x, hx, rfl, rfl⟩ := (gives_factor_constant hno hconst).1 h
      exact ⟨[t], rfl, .constant hconst hx⟩
    by_cases hsym : t.kind = .symbol
    · by_cases hcall : ∀ o ∈ ts.head?, o.image ≠ "("
      · obtain ⟨rfl, rfl⟩ := (gives_factor_symbol hno hsym (ht.named hsym) hcall).1 h
        exact ⟨[t], rfl, .symbol hsym⟩
      · obtain ⟨o, ts, rfl, ho⟩ := exists_head_of_not hcall
        have ho := not_not.1 ho
        obtain ⟨vs, rfl, hvs⟩ := (gives_factor_call hno hsym (ht.named hsym) ho).1 h
        obtain ⟨hol, hts⟩ := List.forall_mem_cons.1 hts
        obtain ⟨us, c, rfl, hc, ha⟩ := arguments_sound ts hts hvs
        have hcl := hts c (by simp)
        exact ⟨t :: o :: us ++ [c], by simp,
          .call hsym (hol.is ho (by decide)) ha (hcl.is hc (by decide))⟩
    · exact absurd h (not_gives_factor hno hconst hsym)
termination_by 4 * ts.length

theorem arguments_sound (ts : List Token) {closer : String} {vs : List Term} {rest : List Token}
    (hl : ∀ t ∈ ts, t.Lexical) (h : Gives (arguments closer ts) vs rest) :
    ∃ us c, ts = us ++ c :: rest ∧ c.image = closer ∧ Arguments us vs := by
  obtain ⟨first, mid, hfirst, others, rfl, hothers⟩ := gives_arguments.1 h
  have hshort := hfirst.shorter
  obtain ⟨us, rfl, he⟩ := expression_sound ts hl hfirst
  have hmid := (List.forall_mem_append.1 hl).2
  by_cases hend : ∀ t ∈ mid.head?, t.image ≠ ","
  · obtain ⟨rfl, c, hc, rfl⟩ := (gives_moreArguments_of_not_comma hend).1 hothers
    exact ⟨us, c, rfl, hc, .one he⟩
  · obtain ⟨t, mid, rfl, ht⟩ := exists_head_of_not hend
    have ht := not_not.1 ht
    obtain ⟨htl, hmid⟩ := List.forall_mem_cons.1 hmid
    have hothers := (gives_moreArguments_comma ht).1 hothers
    obtain ⟨vs, c, rfl, hc, ha⟩ := arguments_sound mid hmid hothers
    exact ⟨us ++ t :: vs, c, by simp, hc, .more he (htl.is ht (by decide)) ha⟩
termination_by 4 * ts.length + 3

end

/-! ## Completeness -/

/-- What cannot be read on after a factor: a symbol would take an opening bracket for the arguments
of a call. -/
def EndsFactor (rest : List Token) : Prop :=
  ∀ t ∈ rest.head?, t.image ≠ "("

/-- What cannot be read on after a product. -/
def EndsProduct (rest : List Token) : Prop :=
  ∀ t ∈ rest.head?, t.image ≠ "(" ∧ productTag? t = none

/-- What cannot be read on after an expression. -/
def EndsExpression (rest : List Token) : Prop :=
  ∀ t ∈ rest.head?, t.image ≠ "(" ∧ productTag? t = none ∧ sumTag? t = none

theorem EndsProduct.endsFactor (h : EndsProduct rest) : EndsFactor rest :=
  fun t ht => (h t ht).1

theorem EndsExpression.endsProduct (h : EndsExpression rest) : EndsProduct rest :=
  fun t ht => ⟨(h t ht).1, (h t ht).2.1⟩

theorem EndsProduct.givesOn (h : EndsProduct rest) (v : Term) : GivesOn (products v rest) v rest :=
  (givesOn_products_of_none fun t ht => (h t ht).2).2 ⟨rfl, rfl⟩

theorem EndsExpression.givesOn (h : EndsExpression rest) (v : Term) :
    GivesOn (sums v rest) v rest :=
  (givesOn_sums_of_none fun t ht => (h t ht).2.2).2 ⟨rfl, rfl⟩

theorem endsFactor_of_mem_productTags (h : (t.image, tag) ∈ productTags) :
    EndsFactor (t :: rest) := by
  have hall : ∀ p ∈ productTags, p.1 ≠ "(" := by decide
  intro u hu
  obtain rfl := Option.some.inj hu
  exact hall _ h

theorem endsProduct_of_mem_sumTags (h : (t.image, tag) ∈ sumTags) : EndsProduct (t :: rest) := by
  have hall : ∀ p ∈ sumTags, p.1 ≠ "(" ∧ ∀ q ∈ productTags, p.1 ≠ q.1 := by decide
  intro u hu
  obtain rfl := Option.some.inj hu
  refine ⟨(hall _ h).1, Option.eq_none_iff_forall_ne_some.2 fun tag' htag => ?_⟩
  exact (hall _ h).2 _ (productTag?_eq_some_iff.1 htag) rfl

/-- The marks after which nothing is read on. -/
def closers : List String :=
  [")", "]", ","]

theorem endsExpression_of_mem_closers (h : t.image ∈ closers) : EndsExpression (t :: rest) := by
  have hall : ∀ mark ∈ closers, mark ≠ "(" ∧ (∀ q ∈ productTags, mark ≠ q.1) ∧
      ∀ q ∈ sumTags, mark ≠ q.1 := by decide
  intro u hu
  obtain rfl := Option.some.inj hu
  obtain ⟨hopen, hproduct, hsum⟩ := hall _ h
  refine ⟨hopen, Option.eq_none_iff_forall_ne_some.2 fun tag htag => ?_,
    Option.eq_none_iff_forall_ne_some.2 fun tag htag => ?_⟩
  · exact hproduct _ (productTag?_eq_some_iff.1 htag) rfl
  · exact hsum _ (sumTag?_eq_some_iff.1 htag) rfl

mutual

/-- An expression is read, and then what can be added to it. -/
theorem expression_complete {us : List Token} {v : Term} (h : Expression us v) :
    (∀ t ∈ us, t.Lexical) → ∀ {rest out : List Token} {w : Term}, EndsProduct rest →
      GivesOn (sums v rest) w out → Gives (expression (us ++ rest)) w out := by
  match h with
  | .product hp =>
    intro hl rest out w hr hon
    have hterm := product_complete hp hl hr.endsFactor (hr.givesOn v)
    exact gives_expression.2 ⟨_, _, hterm, hon⟩
  | @Expression.sum ls l t mark tag rs r hls ht hm hrs =>
    intro hl rest out w hr hon
    obtain ⟨hll, hlr⟩ := List.forall_mem_append.1 hl
    have hlr := (List.forall_mem_cons.1 hlr).2
    obtain ⟨-, rfl⟩ := ht
    have hterm := product_complete hrs hlr hr.endsFactor (hr.givesOn r)
    rw [List.append_assoc, List.cons_append]
    refine expression_complete hls hll (endsProduct_of_mem_sumTags hm) ?_
    exact (givesOn_sums_cons (sumTag?_eq_some_iff.2 hm)).2 ⟨_, _, hterm, hon⟩

/-- A product is read, and then what it can be multiplied with. -/
theorem product_complete {us : List Token} {v : Term} (h : Product us v) :
    (∀ t ∈ us, t.Lexical) → ∀ {rest out : List Token} {w : Term}, EndsFactor rest →
      GivesOn (products v rest) w out → Gives (term (us ++ rest)) w out := by
  match h with
  | .factor hf =>
    intro hl rest out w hr hon
    exact gives_term.2 ⟨_, _, factor_complete hf hl hr, hon⟩
  | @Product.product ls l t mark tag rs r hls ht hm hrs =>
    intro hl rest out w hr hon
    obtain ⟨hll, hlr⟩ := List.forall_mem_append.1 hl
    have hlr := (List.forall_mem_cons.1 hlr).2
    obtain ⟨-, rfl⟩ := ht
    have hfactor := factor_complete hrs hlr hr
    rw [List.append_assoc, List.cons_append]
    refine product_complete hls hll (endsFactor_of_mem_productTags hm) ?_
    exact (givesOn_products_cons (productTag?_eq_some_iff.2 hm)).2 ⟨_, _, hfactor, hon⟩

theorem factor_complete {us : List Token} {v : Term} (h : Factor us v) :
    (∀ t ∈ us, t.Lexical) → ∀ {rest : List Token}, EndsFactor rest →
      Gives (factor (us ++ rest)) v rest := by
  match h with
  | .negation ht hf =>
    intro hl rest hr
    have hl := (List.forall_mem_cons.1 hl).2
    exact (gives_factor_minus ht.2).2 ⟨_, rfl, factor_complete hf hl hr⟩
  | @Factor.group t ts v c ht he hc =>
    intro hl rest hr
    have hl := (List.forall_mem_cons.1 (List.forall_mem_append.1 hl).1).2
    have hend : EndsExpression (c :: rest) :=
      endsExpression_of_mem_closers (by rw [hc.2]; decide)
    have hinner := expression_complete he hl hend.endsProduct (hend.givesOn v)
    rw [List.append_assoc, List.cons_append]
    exact (gives_factor_group ht.2).2 ⟨c, hc.2, hinner⟩
  | @Factor.vector t ts vs c ht ha hc =>
    intro hl rest hr
    have hl := (List.forall_mem_cons.1 (List.forall_mem_append.1 hl).1).2
    have hargs := arguments_complete ha hl rest hc.2 (by decide)
    rw [List.append_assoc, List.cons_append]
    exact (gives_factor_vector ht.2).2 ⟨vs, rfl, hargs⟩
  | @Factor.constant t x hk hx =>
    intro hl rest hr
    have hno := (hl t List.mem_cons_self).not_mem_openers (by rw [hk]; decide)
    exact (gives_factor_constant hno hk).2 ⟨x, hx, rfl, rfl⟩
  | @Factor.symbol t hk =>
    intro hl rest hr
    have ht := hl t List.mem_cons_self
    have hno := ht.not_mem_openers (by rw [hk]; decide)
    exact (gives_factor_symbol hno hk (ht.named hk) hr).2 ⟨rfl, rfl⟩
  | @Factor.call t o ts vs c hk ho ha hc =>
    intro hl rest hr
    obtain ⟨ht, hl⟩ := List.forall_mem_cons.1 hl
    have hl := (List.forall_mem_cons.1 (List.forall_mem_append.1 hl).1).2
    have hno := ht.not_mem_openers (by rw [hk]; decide)
    have hargs := arguments_complete ha hl rest hc.2 (by decide)
    rw [List.append_assoc, List.cons_append, List.cons_append]
    exact (gives_factor_call hno hk (ht.named hk) ho.2).2 ⟨vs, rfl, hargs⟩

theorem arguments_complete {us : List Token} {vs : List Term} (h : Arguments us vs) :
    (∀ t ∈ us, t.Lexical) → ∀ (rest : List Token) {c : Token} {closer : String},
      c.image = closer → closer ∈ [")", "]"] →
        Gives (arguments closer (us ++ c :: rest)) vs rest := by
  match h with
  | @Arguments.one ts v he =>
    intro hl rest c closer hc hcl
    have hmem : c.image ∈ closers ∧ c.image ≠ "," := by
      have hall : ∀ mark ∈ [")", "]"], mark ∈ closers ∧ mark ≠ "," := by decide
      rw [hc]
      exact hall closer hcl
    have hend : EndsExpression (c :: rest) := endsExpression_of_mem_closers hmem.1
    have hfirst := expression_complete he hl hend.endsProduct (hend.givesOn v)
    have hlast : Gives (moreArguments closer (c :: rest)) [] rest := by
      refine (gives_moreArguments_of_not_comma fun t ht => ?_).2 ⟨rfl, c, hc, rfl⟩
      obtain rfl := Option.some.inj ht
      exact hmem.2
    exact gives_arguments.2 ⟨_, _, hfirst, [], rfl, hlast⟩
  | @Arguments.more ts v t rs vs he ht ha =>
    intro hl rest c closer hc hcl
    obtain ⟨hlts, hlr⟩ := List.forall_mem_append.1 hl
    have hlr := (List.forall_mem_cons.1 hlr).2
    have hend : EndsExpression (t :: (rs ++ c :: rest)) :=
      endsExpression_of_mem_closers (by rw [ht.2]; decide)
    have hfirst := expression_complete he hlts hend.endsProduct (hend.givesOn v)
    have hothers := arguments_complete ha hlr rest hc hcl
    rw [List.append_assoc, List.cons_append]
    exact gives_arguments.2
      ⟨_, _, hfirst, vs, rfl, (gives_moreArguments_comma ht.2).2 hothers⟩

end

/-! ## Statements -/

theorem endsExpression_nil : EndsExpression [] :=
  fun _ ht => nomatch ht

/-- A list that begins like an assignment contains the sign of an assignment. -/
theorem exists_sign_of_isAssignment (hl : ∀ t ∈ ts, t.Lexical) (h : isAssignment ts = true) :
    ∃ s ∈ ts, s.Is "=" := by
  match ts, h with
  | t :: s :: us, h =>
    have hs : s ∈ t :: s :: us := List.mem_cons_of_mem t List.mem_cons_self
    exact ⟨s, hs, (hl s hs).is (beq_iff_eq.1 h) (by decide)⟩

/-- The statements that leave no token are those of the grammar. -/
theorem gives_statement_iff (hl : ∀ t ∈ ts, t.Lexical) :
    Gives (statement ts) v [] ↔ Statement ts v := by
  constructor
  · intro h
    cases ha : isAssignment ts with
    | true =>
      obtain ⟨t, s, us, w, rfl, hk, -, hs, rfl, hw⟩ := (gives_statement_of_assignment ha).1 h
      obtain ⟨-, hl⟩ := List.forall_mem_cons.1 hl
      obtain ⟨hsl, hl⟩ := List.forall_mem_cons.1 hl
      obtain ⟨us, rfl, he⟩ := expression_sound us hl hw
      rw [List.append_nil]
      exact .assignment hk (hsl.is hs (by decide)) he
    | false =>
      rw [statement_of_not_assignment ha] at h
      obtain ⟨us, rfl, he⟩ := expression_sound ts hl h
      rw [List.append_nil]
      exact .expression he
  · intro h
    cases h with
    | @assignment t s us w hk hs he =>
      have hname := (hl t List.mem_cons_self).named hk
      have hlus := (List.forall_mem_cons.1 (List.forall_mem_cons.1 hl).2).2
      have hread := expression_complete he hlus endsExpression_nil.endsProduct
        (endsExpression_nil.givesOn w)
      rw [List.append_nil] at hread
      have ha : isAssignment (t :: s :: us) = true := beq_iff_eq.2 hs.2
      exact (gives_statement_of_assignment ha).2 ⟨t, s, us, w, rfl, hk, hname, hs.2, rfl, hread⟩
    | expression he =>
      have ha : isAssignment ts = false := by
        apply Bool.eq_false_iff.2
        intro ha
        obtain ⟨s, hs, hsign⟩ := exists_sign_of_isAssignment hl ha
        exact he.free_of_sign s hs hsign
      have hread := expression_complete he hl endsExpression_nil.endsProduct
        (endsExpression_nil.givesOn v)
      rw [List.append_nil] at hread
      rw [statement_of_not_assignment ha]
      exact hread

end Parser

/-! ## From the text on -/

namespace Term

theorem parse?_eq_ok_iff {tokens : List Token} {v : Term} :
    parse? tokens = .ok v ↔ ofSignificant? (Token.significant tokens) = .ok v := by
  rw [parse?, ofTokens?]
  cases ofSignificant? (Token.significant tokens) with
  | error e => exact iff_of_false (fun h => nomatch h) fun h => nomatch h
  | ok w => rw [Except.mapError, Except.ok.injEq, Except.ok.injEq]

/-- The parser accepts exactly the statements of the grammar and builds their terms. For the tokens
of any text: the parser returns a term if and only if the significant tokens are derived as a
statement that stands for it; they are never derived for two terms; every constant among them
denotes a number; and with `=` for their second token they are derived as an assignment only. -/
theorem parse?_eq_ok_iff_statement {source : String} {tokens : List Token}
    (h : Token.read? source = .ok tokens) :
    (∀ v, parse? tokens = .ok v ↔ Statement (Token.significant tokens) v) ∧
      (∀ v w, Statement (Token.significant tokens) v → Statement (Token.significant tokens) w →
        v = w) ∧
      (∀ t ∈ tokens, t.kind = .constant → ∃ x, number? t.image = some x) ∧
      ∀ t s ts, Token.significant tokens = t :: s :: ts → s.image = "=" →
        ∀ v, ¬ Expression (Token.significant tokens) v := by
  have hsource : Token.ofSource? source = .ok tokens := by
    rw [Token.read?] at h
    cases hs : Token.ofSource? source with
    | error position =>
      rw [hs] at h
      cases h
    | ok ts =>
      rw [hs] at h
      cases h
      rfl
  have hl := Token.lexical_of_mem_significant hsource
  have hread : ∀ v, parse? tokens = .ok v ↔ Statement (Token.significant tokens) v := fun v =>
    parse?_eq_ok_iff.trans (ofSignificant?_eq_ok_iff.trans (Parser.gives_statement_iff hl))
  refine ⟨hread, ?_, ?_, ?_⟩
  · intro v w hv hw
    have heq := ((hread v).2 hv).symm.trans ((hread w).2 hw)
    exact Except.ok.inj heq
  · intro t ht hk
    have hs : t ∈ Token.significant tokens := by
      refine List.mem_filter.2 ⟨ht, ?_⟩
      rw [Token.isSignificant, hk]
      decide
    exact Option.isSome_iff_exists.1 ((hl t hs).number hk)
  · intro t s ts hts hs v he
    have hmem : s ∈ Token.significant tokens := by
      rw [hts]
      exact List.mem_cons_of_mem t List.mem_cons_self
    exact he.free_of_sign s hmem ((hl s hmem).is hs (by decide))

/-- Differences are grouped to the left and products first, in an assigned expression too. -/
theorem statement_assigned_difference :
    ∃ tokens, Token.read? "x=a-b*c-d" = .ok tokens ∧
      Statement (Token.significant tokens)
        (.binary "$let" (.sym "x") (.binary "$sub"
          (.binary "$sub" (.sym "a") (.binary "$mul" (.sym "b") (.sym "c"))) (.sym "d"))) := by
  have hread : Token.read? "x=a-b*c-d" = .ok
      [⟨.symbol, "x", 0⟩, ⟨.operator, "=", 1⟩, ⟨.symbol, "a", 2⟩, ⟨.operator, "-", 3⟩,
        ⟨.symbol, "b", 4⟩, ⟨.operator, "*", 5⟩, ⟨.symbol, "c", 6⟩, ⟨.operator, "-", 7⟩,
        ⟨.symbol, "d", 8⟩] := by
    decide +kernel
  refine ⟨_, hread, ((parse?_eq_ok_iff_statement hread).1 _).1 ?_⟩
  with_unfolding_all rfl

end Term

end TermCalc
