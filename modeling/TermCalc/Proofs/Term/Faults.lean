import TermCalc.Proofs.Term.Cursor
import TermCalc.Proofs.Term.Readable
import TermCalc.Proofs.Term.Rejection

/-!
# Why reading fails, and what it builds

A list of tokens, whatever their kinds and images are, is read as a well-formed term or refused,
unless a constant denotes no number or a symbol has no name. On the tokens of a text neither of
these can happen.

## Main results

* `Parser.expression_wellFormed`, `Parser.factor_wellFormed`, …: what the reading functions build
* `Term.wellFormed_of_ofTokens?`: what a list of tokens is read as
* `Term.read?_cases`, `Term.parse?_cases`: the ways in which reading ends
* `Term.reading_fails_as_documented`: texts and lists of tokens
-/

namespace TermCalc

namespace Term

variable {name tag : String} {args : List Term} {arg left right : Term}

theorem wellFormedAll_iff : wellFormedAll args = true ↔ ∀ a ∈ args, a.WellFormed := by
  induction args with
  | nil => exact iff_of_true rfl fun _ ha => nomatch ha
  | cons a args ih => rw [wellFormedAll, Bool.and_eq_true, ih, List.forall_mem_cons, WellFormed]

theorem wellFormed_sym : (Term.sym name).WellFormed ↔ name ≠ "" :=
  bne_iff_ne

theorem wellFormed_app_sym : (Term.app (.sym name) args).WellFormed ↔
    name ≠ "" ∧ args ≠ [] ∧ ∀ a ∈ args, a.WellFormed := by
  rw [← wellFormedAll_iff, ← wellFormed_sym]
  cases args with
  | nil => simp [WellFormed, wellFormed]
  | cons a args => simp [WellFormed, wellFormed]

theorem wellFormed_unary (ht : tag ≠ "") (h : arg.WellFormed) : (unary tag arg).WellFormed :=
  wellFormed_app_sym.2 ⟨ht, List.cons_ne_nil _ _, List.forall_mem_singleton.2 h⟩

theorem wellFormed_binary (ht : tag ≠ "") (hl : left.WellFormed) (hr : right.WellFormed) :
    (binary tag left right).WellFormed :=
  wellFormed_app_sym.2 ⟨ht, List.cons_ne_nil _ _,
    List.forall_mem_cons.2 ⟨hl, List.forall_mem_singleton.2 hr⟩⟩

end Term

namespace Parser

open Grammar (sumTags productTags)

variable {rest : List Token} {v : Term} {vs : List Term}

theorem sumTag_ne_empty {t : Token} {tag : String} (h : sumTag? t = some tag) : tag ≠ "" := by
  have hall : ∀ p ∈ sumTags, p.2 ≠ "" := by decide
  exact hall _ (sumTag?_eq_some_iff.1 h)

theorem productTag_ne_empty {t : Token} {tag : String} (h : productTag? t = some tag) :
    tag ≠ "" := by
  have hall : ∀ p ∈ productTags, p.2 ≠ "" := by decide
  exact hall _ (productTag?_eq_some_iff.1 h)

/-! ## What the reading functions build -/

mutual

theorem expression_wellFormed (ts : List Token) {v : Term} {rest : List Token}
    (h : Gives (expression ts) v rest) : v.WellFormed := by
  obtain ⟨first, mid, hfirst, hall⟩ := gives_expression.1 h
  have hshort := hfirst.shorter
  exact sums_wellFormed mid (term_wellFormed ts hfirst) hall
termination_by 4 * ts.length + 2

theorem sums_wellFormed {left : Term} (ts : List Token) {v : Term} {rest : List Token}
    (hleft : left.WellFormed) (h : GivesOn (sums left ts) v rest) : v.WellFormed := by
  match ts with
  | [] =>
    have hend : ∀ t ∈ ([] : List Token).head?, sumTag? t = none := fun _ ht => nomatch ht
    obtain ⟨rfl, -⟩ := (givesOn_sums_of_none hend).1 h
    exact hleft
  | t :: ts =>
    cases htag : sumTag? t with
    | none =>
      obtain ⟨rfl, -⟩ := (givesOn_sums_of_none (forall_head_cons htag)).1 h
      exact hleft
    | some tag =>
      obtain ⟨right, mid, hright, hall⟩ := (givesOn_sums_cons htag).1 h
      have hshort := hright.shorter
      exact sums_wellFormed mid
        (Term.wellFormed_binary (sumTag_ne_empty htag) hleft (term_wellFormed ts hright)) hall
termination_by 4 * ts.length

theorem term_wellFormed (ts : List Token) {v : Term} {rest : List Token}
    (h : Gives (term ts) v rest) : v.WellFormed := by
  obtain ⟨first, mid, hfirst, hall⟩ := gives_term.1 h
  have hshort := hfirst.shorter
  exact products_wellFormed mid (factor_wellFormed ts hfirst) hall
termination_by 4 * ts.length + 1

theorem products_wellFormed {left : Term} (ts : List Token) {v : Term} {rest : List Token}
    (hleft : left.WellFormed) (h : GivesOn (products left ts) v rest) : v.WellFormed := by
  match ts with
  | [] =>
    have hend : ∀ t ∈ ([] : List Token).head?, productTag? t = none := fun _ ht => nomatch ht
    obtain ⟨rfl, -⟩ := (givesOn_products_of_none hend).1 h
    exact hleft
  | t :: ts =>
    cases htag : productTag? t with
    | none =>
      obtain ⟨rfl, -⟩ := (givesOn_products_of_none (forall_head_cons htag)).1 h
      exact hleft
    | some tag =>
      obtain ⟨right, mid, hright, hall⟩ := (givesOn_products_cons htag).1 h
      have hshort := hright.shorter
      exact products_wellFormed mid
        (Term.wellFormed_binary (productTag_ne_empty htag) hleft (factor_wellFormed ts hright)) hall
termination_by 4 * ts.length

theorem factor_wellFormed (ts : List Token) {v : Term} {rest : List Token}
    (h : Gives (factor ts) v rest) : v.WellFormed := by
  match ts with
  | [] => exact absurd h not_gives_factor_nil
  | t :: ts =>
    by_cases hminus : t.image = "-"
    · obtain ⟨w, rfl, hw⟩ := (gives_factor_minus hminus).1 h
      exact Term.wellFormed_unary (by decide) (factor_wellFormed ts hw)
    by_cases hopen : t.image = "("
    · obtain ⟨c, -, hv⟩ := (gives_factor_group hopen).1 h
      exact expression_wellFormed ts hv
    by_cases hvec : t.image = "["
    · obtain ⟨vs, rfl, hvs⟩ := (gives_factor_vector hvec).1 h
      exact Term.wellFormed_app_sym.2 ⟨by decide, arguments_wellFormed ts hvs⟩
    have hno : t.image ∉ openers := by simp [openers, hminus, hopen, hvec]
    by_cases hconst : t.kind = .constant
    · obtain ⟨x, -, rfl, -⟩ := (gives_factor_constant hno hconst).1 h
      rfl
    by_cases hsym : t.kind = .symbol
    · by_cases hname : t.image = ""
      · rw [factor_nameless hsym hname] at h
        exact absurd h not_yields_error
      by_cases hcall : ∀ o ∈ ts.head?, o.image ≠ "("
      · obtain ⟨rfl, -⟩ := (gives_factor_symbol hno hsym hname hcall).1 h
        exact Term.wellFormed_sym.2 hname
      · obtain ⟨o, ts, rfl, ho⟩ := exists_head_of_not hcall
        obtain ⟨vs, rfl, hvs⟩ := (gives_factor_call hno hsym hname (not_not.1 ho)).1 h
        exact Term.wellFormed_app_sym.2 ⟨hname, arguments_wellFormed ts hvs⟩
    · exact absurd h (not_gives_factor hno hconst hsym)
termination_by 4 * ts.length

/-- There is at least one argument. -/
theorem arguments_wellFormed (ts : List Token) {closer : String} {vs : List Term}
    {rest : List Token} (h : Gives (arguments closer ts) vs rest) :
    vs ≠ [] ∧ ∀ v ∈ vs, v.WellFormed := by
  obtain ⟨first, mid, hfirst, others, rfl, hothers⟩ := gives_arguments.1 h
  have hshort := hfirst.shorter
  refine ⟨List.cons_ne_nil _ _, List.forall_mem_cons.2 ⟨expression_wellFormed ts hfirst, ?_⟩⟩
  by_cases hend : ∀ t ∈ mid.head?, t.image ≠ ","
  · obtain ⟨rfl, -⟩ := (gives_moreArguments_of_not_comma hend).1 hothers
    exact fun _ hv => nomatch hv
  · obtain ⟨t, mid, rfl, ht⟩ := exists_head_of_not hend
    have hshort : mid.length < ts.length := Nat.lt_of_succ_lt hshort
    have hothers := (gives_moreArguments_comma (not_not.1 ht)).1 hothers
    obtain ⟨-, hothers⟩ := arguments_wellFormed mid hothers
    exact hothers
termination_by 4 * ts.length + 3

end

theorem statement_wellFormed {ts : List Token} (h : Gives (statement ts) v rest) :
    v.WellFormed := by
  cases ha : isAssignment ts with
  | true =>
    obtain ⟨t, s, us, w, rfl, -, hn, -, rfl, hw⟩ := (gives_statement_of_assignment ha).1 h
    exact Term.wellFormed_binary (by decide) (Term.wellFormed_sym.2 hn)
      (expression_wellFormed us hw)
  | false =>
    rw [statement_of_not_assignment ha] at h
    exact expression_wellFormed ts h

end Parser

/-! ## Lists of tokens and texts -/

namespace Term

variable {tokens : List Token} {v : Term}

/-- What a list of tokens is read as has a name at every symbol and an argument at every
application. -/
theorem wellFormed_of_ofTokens? (h : ofTokens? tokens = .ok v) : v.WellFormed :=
  Parser.statement_wellFormed (ofSignificant?_eq_ok_iff.1 h)

/-- Every failure but a refusal is about a token that no text has. -/
theorem cause_of_ofTokens? {e : ParseError} (h : ofTokens? tokens = .error e) :
    match e with
    | .refused _ index => index ≤ (Token.significant tokens).length
    | .notANumber image => ∃ t ∈ tokens, t.kind = .constant ∧ t.image = image ∧ number? image = none
    | .namelessSymbol => ∃ t ∈ tokens, t.kind = .symbol ∧ t.image = "" := by
  rw [ofTokens?, ofSignificant?] at h
  cases hwhole : Parser.whole (Token.significant tokens) with
  | ok v =>
    rw [hwhole] at h
    cases h
  | error f =>
    have hblames := Parser.blames_of_whole hwhole
    rw [hwhole] at h
    cases f with
    | refused problem rest =>
      obtain rfl := Except.error.inj h
      exact Nat.sub_le _ _
    | notANumber image =>
      obtain rfl := Except.error.inj h
      obtain ⟨t, ht, hcause⟩ := hblames
      exact ⟨t, List.mem_of_mem_filter ht, hcause⟩
    | namelessSymbol =>
      obtain rfl := Except.error.inj h
      obtain ⟨t, ht, hcause⟩ := hblames
      exact ⟨t, List.mem_of_mem_filter ht, hcause⟩

/-- A text is read, or no token begins somewhere in it, or its tokens are refused. -/
theorem read?_cases (source : String) : (∃ v, read? source = .ok v) ∨
    (∃ position, read? source = .error (.noToken source position)) ∨
    ∃ tokens problem index, Token.read? source = .ok tokens ∧
      read? source = .error (.noStatement tokens (.refused problem index)) := by
  rw [read?]
  cases hread : Token.read? source with
  | error e =>
    rw [Token.read?] at hread
    cases hsource : Token.ofSource? source with
    | ok tokens =>
      rw [hsource] at hread
      cases hread
    | error position =>
      rw [hsource] at hread
      obtain rfl := Except.error.inj hread
      exact .inr (.inl ⟨position, rfl⟩)
  | ok tokens =>
    cases hparse : parse? tokens with
    | ok v => exact .inl ⟨v, hparse⟩
    | error e =>
      obtain ⟨problem, index, rfl, -⟩ :=
        refused_of_parse? (Token.read?_eq_ok_iff.1 hread) hparse
      exact .inr (.inr ⟨tokens, problem, index, rfl, hparse⟩)

/-- A list of tokens is read, or it is refused, or one of its tokens is to blame. -/
theorem parse?_cases (tokens : List Token) : (∃ v, parse? tokens = .ok v ∧ v.WellFormed) ∨
    (∃ problem index, parse? tokens = .error (.noStatement tokens (.refused problem index)) ∧
      index ≤ (Token.significant tokens).length) ∨
    (∃ t ∈ tokens, t.kind = .constant ∧ number? t.image = none ∧
      parse? tokens = .error (.noStatement tokens (.notANumber t.image))) ∨
    ∃ t ∈ tokens, t.kind = .symbol ∧ t.image = "" ∧
      parse? tokens = .error (.noStatement tokens .namelessSymbol) := by
  rw [parse?]
  cases hread : ofTokens? tokens with
  | ok v => exact .inl ⟨v, rfl, wellFormed_of_ofTokens? hread⟩
  | error e =>
    have hcause := cause_of_ofTokens? hread
    cases e with
    | refused problem index => exact .inr (.inl ⟨problem, index, rfl, hcause⟩)
    | notANumber image =>
      obtain ⟨t, ht, hk, rfl, hn⟩ := hcause
      exact .inr (.inr (.inl ⟨t, ht, hk, hn, rfl⟩))
    | namelessSymbol =>
      obtain ⟨t, ht, hk, hn⟩ := hcause
      exact .inr (.inr (.inr ⟨t, ht, hk, hn, rfl⟩))

/-- **Reading fails only as documented.** A text is read as a term, or no token begins somewhere in
it, or its tokens are refused. A list of any tokens is read as a well-formed term, or refused at one
of its significant tokens or behind them, unless one of its constants denotes no number or one of
its symbols has no name. A reader that walks over the list with a cursor ends and says the same, if
its calls may be nested deeply enough: it takes no token outside the list, looks up no operator that
has no tag and applies nothing to no arguments. -/
theorem reading_fails_as_documented :
    (∀ source, (∃ v, read? source = .ok v) ∨
      (∃ position, read? source = .error (.noToken source position)) ∨
      ∃ tokens problem index, Token.read? source = .ok tokens ∧
        read? source = .error (.noStatement tokens (.refused problem index))) ∧
    ∀ tokens,
      ((∃ v, parse? tokens = .ok v ∧ v.WellFormed) ∨
        (∃ problem index, parse? tokens = .error (.noStatement tokens (.refused problem index)) ∧
          index ≤ (Token.significant tokens).length) ∨
        (∃ t ∈ tokens, t.kind = .constant ∧ number? t.image = none ∧
          parse? tokens = .error (.noStatement tokens (.notANumber t.image))) ∨
        ∃ t ∈ tokens, t.kind = .symbol ∧ t.image = "" ∧
          parse? tokens = .error (.noStatement tokens .namelessSymbol)) ∧
      ∀ depth ≥ 4 * (Token.significant tokens).length + 3,
        Cursor.parse depth tokens = some ((ofTokens? tokens).mapError Cursor.Fault.ofParseError) ∧
        (∀ position, Cursor.parse depth tokens ≠ some (.error (.outOfRange position))) ∧
        (∀ image, Cursor.parse depth tokens ≠ some (.error (.unknownOperator image))) ∧
        Cursor.parse depth tokens ≠ some (.error (.notBuilt .noArguments)) := by
  refine ⟨read?_cases, fun tokens => ⟨parse?_cases tokens, fun depth hdepth => ?_⟩⟩
  refine ⟨Cursor.parse_eq hdepth, fun position => Cursor.parse_ne_error hdepth ?_,
    fun image => Cursor.parse_ne_error hdepth ?_, Cursor.parse_ne_error hdepth ?_⟩
  all_goals
    intro e he
    cases e <;> cases he

end Term

end TermCalc
