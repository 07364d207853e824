import TermCalc.Proofs.Term.Parser
import TermCalc.Proofs.Term.Part
import TermCalc.Proofs.Token.Extent

/-!
# The terms that texts are read as

A text is read as a term without abstractions, in which a symbol stands at the head of every
application, with a name that the text of a symbol may be.

## Main definitions

* `Term.Readable v`: constants, symbols with proper names, and symbols applied to such terms

## Main results

* `Term.read?_eq_ok_iff`: what a text is read as, in terms of the grammar
* `Term.readable_of_read?`: a text is read as a readable term
-/

namespace TermCalc

open Lexer (SymbolName)

namespace Term

/-! ## Readable terms -/

/-- The constants, the symbols with proper names, and such symbols applied to readable terms. -/
inductive Readable : Term → Prop
  | const (x : Float) : Readable (.const x)
  | sym {name : String} : SymbolName name.toList → Readable (.sym name)
  | app {name : String} {args : List Term} : SymbolName name.toList → args ≠ [] →
      (∀ a ∈ args, Readable a) → Readable (.app (.sym name) args)

/-- A name that begins with `$` is proper. -/
theorem symbolName_dollar {tail : List Char} (h : tail.all Lexer.isSymbolPart = true) :
    SymbolName ('$' :: tail) where
  shape := ⟨'$', tail, rfl, by decide, List.all_eq_true.1 h⟩
  notNaN := Lexer.not_prefix_cons (by decide)
  notInfinity := Lexer.not_prefix_cons (by decide)

/-- The tags of operators are proper names. -/
theorem symbolName_tag {tag : String}
    (h : tag ∈ ["$add", "$sub", "$mul", "$div", "$mod", "$neg", "$vec", "$let"]) :
    SymbolName tag.toList := by
  have hall : ∀ tag ∈ ["$add", "$sub", "$mul", "$div", "$mod", "$neg", "$vec", "$let"],
      tag.toList = '$' :: tag.toList.tail ∧
        tag.toList.tail.all Lexer.isSymbolPart = true := by
    decide
  obtain ⟨htag, htail⟩ := hall tag h
  rw [htag]
  exact symbolName_dollar htail

theorem Readable.unary {tag : String} {operand : Term} (ht : SymbolName tag.toList)
    (h : Readable operand) : Readable (unary tag operand) :=
  .app ht (List.cons_ne_nil _ _) (List.forall_mem_singleton.2 h)

theorem Readable.binary {tag : String} {left right : Term} (ht : SymbolName tag.toList)
    (hl : Readable left) (hr : Readable right) : Readable (binary tag left right) := by
  refine .app ht (List.cons_ne_nil _ _) ?_
  rw [List.forall_mem_cons, List.forall_mem_singleton]
  exact ⟨hl, hr⟩

end Term

/-! ## What derivations build -/

namespace Grammar

open Term (Readable symbolName_tag)

theorem symbolName_of_mem_sumTags {mark tag : String} (h : (mark, tag) ∈ sumTags) :
    SymbolName tag.toList := by
  have hall : ∀ p ∈ sumTags,
      p.2 ∈ ["$add", "$sub", "$mul", "$div", "$mod", "$neg", "$vec", "$let"] := by decide
  exact symbolName_tag (hall _ h)

theorem symbolName_of_mem_productTags {mark tag : String} (h : (mark, tag) ∈ productTags) :
    SymbolName tag.toList := by
  have hall : ∀ p ∈ productTags,
      p.2 ∈ ["$add", "$sub", "$mul", "$div", "$mod", "$neg", "$vec", "$let"] := by decide
  exact symbolName_tag (hall _ h)

/-- The symbols among the tokens have proper names. -/
def Named (ts : List Token) : Prop :=
  ∀ t ∈ ts, t.kind = .symbol → SymbolName t.image.toList

theorem Named.left {ls rs : List Token} (h : Named (ls ++ rs)) : Named ls :=
  fun t ht => h t (List.mem_append_left rs ht)

theorem Named.right {ls rs : List Token} (h : Named (ls ++ rs)) : Named rs :=
  fun t ht => h t (List.mem_append_right ls ht)

theorem Named.tail {t : Token} {ts : List Token} (h : Named (t :: ts)) : Named ts :=
  fun u hu => h u (List.mem_cons_of_mem t hu)

mutual

-- induction on derivations: each rule applies a tag or a symbol token to readable terms
theorem Expression.readable {ts : List Token} {v : Term} (h : Expression ts v) (hn : Named ts) :
    Readable v := by
  match h with
  | .product h => exact h.readable hn
  | .sum hl _ hm hr =>
    have htag := symbolName_of_mem_sumTags hm
    exact .binary htag (hl.readable hn.left) (hr.readable hn.right.tail)

theorem Product.readable {ts : List Token} {v : Term} (h : Product ts v) (hn : Named ts) :
    Readable v := by
  match h with
  | .factor h => exact h.readable hn
  | .product hl _ hm hr =>
    have htag := symbolName_of_mem_productTags hm
    exact .binary htag (hl.readable hn.left) (hr.readable hn.right.tail)

theorem Factor.readable {ts : List Token} {v : Term} (h : Factor ts v) (hn : Named ts) :
    Readable v := by
  match h with
  | .negation _ h => exact .unary (symbolName_tag (by decide)) (h.readable hn.tail)
  | .group _ h _ => exact h.readable hn.left.tail
  | .vector _ h _ =>
    obtain ⟨hne, hall⟩ := h.readable hn.left.tail
    exact .app (symbolName_tag (by decide)) hne hall
  | .constant _ _ => exact .const _
  | .symbol hk => exact .sym (hn _ List.mem_cons_self hk)
  | .call hk _ h _ =>
    obtain ⟨hne, hall⟩ := h.readable hn.left.tail.tail
    exact .app (hn _ List.mem_cons_self hk) hne hall

theorem Arguments.readable {ts : List Token} {vs : List Term} (h : Arguments ts vs)
    (hn : Named ts) : vs ≠ [] ∧ ∀ v ∈ vs, Readable v := by
  match h with
  | .one h => exact ⟨List.cons_ne_nil _ _, List.forall_mem_singleton.2 (h.readable hn)⟩
  | .more h _ hs =>
    have hall := (hs.readable hn.right.tail).2
    exact ⟨List.cons_ne_nil _ _, List.forall_mem_cons.2 ⟨h.readable hn.left, hall⟩⟩

end

theorem Statement.readable {ts : List Token} {v : Term} (h : Statement ts v) (hn : Named ts) :
    Readable v := by
  cases h with
  | assignment hk _ h =>
    exact .binary (symbolName_tag (by decide)) (.sym (hn _ List.mem_cons_self hk))
      (h.readable hn.tail.tail)
  | expression h => exact h.readable hn

/-- The symbols of a text have proper names. -/
theorem named_of_ofSource? {source : String} {ts : List Token}
    (h : Token.ofSource? source = .ok ts) : Named (Token.significant ts) := by
  have hall : ∀ t ∈ ts, t.kind = .symbol → SymbolName t.image.toList := by
    rw [Token.eq_scan_of_ofSource? h]
    refine Lexer.forall_mem_scan ?_ true 0 source.toList
    rintro operand cs kind n position hl rfl
    rw [String.toList_ofList]
    exact Lexer.symbolName_of_lexeme? hl
  exact fun t ht => hall t (List.mem_filter.1 ht).1

end Grammar

/-! ## What texts are read as -/

theorem Token.read?_eq_ok_iff {source : String} {ts : List Token} :
    Token.read? source = .ok ts ↔ Token.ofSource? source = .ok ts := by
  rw [Token.read?]
  cases Token.ofSource? source with
  | error position => simp [Except.mapError]
  | ok us => rw [Except.mapError, Except.ok.injEq, Except.ok.injEq]

namespace Term

/-- A text is read as a term if its significant tokens are a statement that stands for it. -/
theorem read?_eq_ok_iff {source : String} {v : Term} :
    read? source = .ok v ↔
      ∃ ts, Token.ofSource? source = .ok ts ∧ Grammar.Statement (Token.significant ts) v := by
  have hparse : ∀ {ts}, Token.ofSource? source = .ok ts →
      (parse? ts = .ok v ↔ Grammar.Statement (Token.significant ts) v) := fun h =>
    parse?_eq_ok_iff.trans (ofSignificant?_eq_ok_iff.trans
      (Parser.gives_statement_iff (Token.lexical_of_mem_significant h)))
  rw [read?]
  cases hread : Token.read? source with
  | error e =>
    refine iff_of_false (fun h => nomatch h) ?_
    rintro ⟨ts, hts, -⟩
    exact nomatch hread.symm.trans (Token.read?_eq_ok_iff.2 hts)
  | ok ts =>
    have hts := Token.read?_eq_ok_iff.1 hread
    constructor
    · exact fun h => ⟨ts, hts, (hparse hts).1 h⟩
    · rintro ⟨us, hus, h⟩
      obtain rfl := Except.ok.inj (hts.symm.trans hus)
      exact (hparse hts).2 h

/-- A text is read as a readable term. -/
theorem readable_of_read? {source : String} {v : Term} (h : read? source = .ok v) :
    Readable v := by
  obtain ⟨ts, hts, hv⟩ := read?_eq_ok_iff.1 h
  exact hv.readable (Grammar.named_of_ofSource? hts)

end Term

end TermCalc
