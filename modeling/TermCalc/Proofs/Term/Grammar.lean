import TermCalc.Number.Literal
import TermCalc.Term.Basic
import TermCalc.Token

/-!
# The grammar of statements

Which lists of significant tokens are statements, and which term each of them stands for. The
grammar says nothing about how a list is read: a derivation cuts the list into parts wherever they
fit. The operators of one level associate to the left, so the left part of a sum is an expression
again while its right part is a product.

## Main definitions

* `Token.Is t mark`: `t` is the operator or bracket `mark`
* `Grammar.Expression ts v`, `Grammar.Product ts v`, `Grammar.Factor ts v`: the tokens `ts` are an
  expression, product or factor that stands for the term `v`
* `Grammar.Arguments ts vs`: the tokens `ts` are expressions with commas between them
* `Grammar.Statement ts v`: the tokens `ts` are an assignment or an expression

## Main results

* `Grammar.Expression.free_of_sign`: no expression contains the sign of an assignment
-/

namespace TermCalc

/-- The token is the operator or bracket `mark`. -/
def Token.Is (t : Token) (mark : String) : Prop :=
  t.kind = .operator ∧ t.image = mark

namespace Grammar

/-- The operators between products, with the tags of the terms they build. -/
def sumTags : List (String × String) :=
  [("+", "$add"), ("-", "$sub")]

/-- The operators between factors, with the tags of the terms they build. -/
def productTags : List (String × String) :=
  [("*", "$mul"), ("/", "$div"), ("%", "$mod")]

mutual

/-- Products with `+` and `-` between them. -/
inductive Expression : List Token → Term → Prop
  | product {ts v} : Product ts v → Expression ts v
  | sum {ls l t mark tag rs r} : Expression ls l → Token.Is t mark → (mark, tag) ∈ sumTags →
      Product rs r → Expression (ls ++ t :: rs) (.binary tag l r)

/-- Factors with `*`, `/` and `%` between them. -/
inductive Product : List Token → Term → Prop
  | factor {ts v} : Factor ts v → Product ts v
  | product {ls l t mark tag rs r} : Product ls l → Token.Is t mark → (mark, tag) ∈ productTags →
      Factor rs r → Product (ls ++ t :: rs) (.binary tag l r)

/-- The operands of the operators. -/
inductive Factor : List Token → Term → Prop
  | negation {t ts v} : Token.Is t "-" → Factor ts v → Factor (t :: ts) (.unary "$neg" v)
  | group {t ts v c} : Token.Is t "(" → Expression ts v → Token.Is c ")" →
      Factor (t :: ts ++ [c]) v
  | vector {t ts vs c} : Token.Is t "[" → Arguments ts vs → Token.Is c "]" →
      Factor (t :: ts ++ [c]) (.app (.sym "$vec") vs)
  | constant {t x} : t.kind = .constant → number? t.image = some x → Factor [t] (.const x)
  | symbol {t} : t.kind = .symbol → Factor [t] (.sym t.image)
  | call {t o ts vs c} : t.kind = .symbol → Token.Is o "(" → Arguments ts vs → Token.Is c ")" →
      Factor (t :: o :: ts ++ [c]) (.app (.sym t.image) vs)

/-- Expressions with commas between them, at least one. -/
inductive Arguments : List Token → List Term → Prop
  | one {ts v} : Expression ts v → Arguments ts [v]
  | more {ts v t rs vs} : Expression ts v → Token.Is t "," → Arguments rs vs →
      Arguments (ts ++ t :: rs) (v :: vs)

end

/-- A whole statement: an assignment to a symbol, or an expression. -/
inductive Statement : List Token → Term → Prop
  | assignment {t s ts v} : t.kind = .symbol → Token.Is s "=" → Expression ts v →
      Statement (t :: s :: ts) (.binary "$let" (.sym t.image) v)
  | expression {ts v} : Expression ts v → Statement ts v

/-! ## The sign of an assignment -/

theorem not_sign_of_kind {t : Token} (h : t.kind ≠ .operator) : ¬ t.Is "=" :=
  fun hs => h hs.1

theorem not_sign_of_is {t : Token} {mark : String} (h : t.Is mark) (hm : mark ≠ "=") :
    ¬ t.Is "=" :=
  fun hs => hm (h.2.symm.trans hs.2)

theorem ne_sign_of_mem_sumTags {mark tag : String} (h : (mark, tag) ∈ sumTags) : mark ≠ "=" := by
  rintro rfl
  simp [sumTags] at h

theorem ne_sign_of_mem_productTags {mark tag : String} (h : (mark, tag) ∈ productTags) :
    mark ≠ "=" := by
  rintro rfl
  simp [productTags] at h

/-- What lies in brackets is free of the sign when what is enclosed is. -/
theorem free_of_sign_bracketed {t c : Token} {ts : List Token} {opener closer : String}
    (ht : t.Is opener) (ho : opener ≠ "=") (h : ∀ u ∈ ts, ¬ u.Is "=") (hc : c.Is closer)
    (hcl : closer ≠ "=") : ∀ u ∈ t :: ts ++ [c], ¬ u.Is "=" := by
  refine List.forall_mem_append.2 ⟨List.forall_mem_cons.2 ⟨?_, h⟩, List.forall_mem_singleton.2 ?_⟩
  · exact not_sign_of_is ht ho
  · exact not_sign_of_is hc hcl

/-- Two parts with an operator between them are free of the sign when both parts are. -/
theorem free_of_sign_infix {ls rs : List Token} {t : Token} {mark : String}
    (hl : ∀ u ∈ ls, ¬ u.Is "=") (ht : t.Is mark) (hm : mark ≠ "=") (hr : ∀ u ∈ rs, ¬ u.Is "=") :
    ∀ u ∈ ls ++ t :: rs, ¬ u.Is "=" :=
  List.forall_mem_append.2 ⟨hl, List.forall_mem_cons.2 ⟨not_sign_of_is ht hm, hr⟩⟩

mutual

-- induction on derivations: each rule adds operators and brackets other than `=`
/-- An expression contains no `=`, so an assignment is derived by its own rule only. -/
theorem Expression.free_of_sign {ts : List Token} {v : Term} (h : Expression ts v) :
    ∀ t ∈ ts, ¬ t.Is "=" := by
  match h with
  | .product h => exact h.free_of_sign
  | .sum hl ht hm hr =>
    exact free_of_sign_infix hl.free_of_sign ht (ne_sign_of_mem_sumTags hm) hr.free_of_sign

theorem Product.free_of_sign {ts : List Token} {v : Term} (h : Product ts v) :
    ∀ t ∈ ts, ¬ t.Is "=" := by
  match h with
  | .factor h => exact h.free_of_sign
  | .product hl ht hm hr =>
    exact free_of_sign_infix hl.free_of_sign ht (ne_sign_of_mem_productTags hm) hr.free_of_sign

theorem Factor.free_of_sign {ts : List Token} {v : Term} (h : Factor ts v) :
    ∀ t ∈ ts, ¬ t.Is "=" := by
  match h with
  | .negation ht h =>
    exact List.forall_mem_cons.2 ⟨not_sign_of_is ht (by decide), h.free_of_sign⟩
  | .group ht h hc =>
    exact free_of_sign_bracketed ht (by decide) h.free_of_sign hc (by decide)
  | .vector ht h hc =>
    exact free_of_sign_bracketed ht (by decide) h.free_of_sign hc (by decide)
  | .constant hk _ =>
    exact List.forall_mem_singleton.2 (not_sign_of_kind (by simp [hk]))
  | .symbol hk =>
    exact List.forall_mem_singleton.2 (not_sign_of_kind (by simp [hk]))
  | .call hk ho h hc =>
    refine List.forall_mem_cons.2 ⟨not_sign_of_kind (by simp [hk]), ?_⟩
    exact free_of_sign_bracketed ho (by decide) h.free_of_sign hc (by decide)

theorem Arguments.free_of_sign {ts : List Token} {vs : List Term} (h : Arguments ts vs) :
    ∀ t ∈ ts, ¬ t.Is "=" := by
  match h with
  | .one h => exact h.free_of_sign
  | .more h ht hs => exact free_of_sign_infix h.free_of_sign ht (by decide) hs.free_of_sign

end

end Grammar

end TermCalc
