import TermCalc.Proofs.Term.Readable
import TermCalc.Proofs.Term.Refusal
import TermCalc.Proofs.Token.Spacing

/-!
# Reading tokens that are alike

The grammar looks at the kinds and the images of tokens and at nothing else, so tokens that are alike
are read alike: as the same term, or they are refused at the same one of them. Where the tokens of a
text stand is therefore of no importance, and neither are blanks and comments between them.

## Main definitions

* `Parser.Failure.Alike e e'`: two failures of the same kind, at tokens that are alike
* `Parser.Agree view view' r r'`: two readings give the same and leave the like, or fail alike

## Main results

* `Parser.agree_expression`, `Parser.agree_factor`, …: every reading function reads the like alike
* `Term.ofSignificant?_eq_of_alike`: tokens that are alike are read as the same term
* `Term.read?_spaced`: a text is read as its tokens with single blanks between them
-/

namespace TermCalc

open Token (Alike significant spaced)

namespace Parser

variable {α β γ δ α' β' : Type} {ts us : List Token}

/-! ## Readings that agree -/

/-- The failures are of the same kind, and the tokens that they record are alike. -/
inductive Failure.Alike : Failure → Failure → Prop
  | refused (problem : Problem) {rest rest' : List Token} (h : Token.Alike rest rest') :
      Failure.Alike (.refused problem rest) (.refused problem rest')
  | notANumber (image : String) : Failure.Alike (.notANumber image) (.notANumber image)
  | namelessSymbol : Failure.Alike .namelessSymbol .namelessSymbol

/-- The readings give the same value and leave tokens that are alike, or they fail alike. -/
inductive Agree (view : α → γ × List Token) (view' : β → γ × List Token) :
    Except Failure α → Except Failure β → Prop
  | ok {a : α} {b : β} (value : (view a).1 = (view' b).1)
      (rest : Token.Alike (view a).2 (view' b).2) : Agree view view' (.ok a) (.ok b)
  | error {e e' : Failure} (h : e.Alike e') : Agree view view' (.error e) (.error e')

/-- One reading after another. -/
theorem Agree.bind {view : α → γ × List Token} {view' : β → γ × List Token}
    {later : α' → δ × List Token} {later' : β' → δ × List Token} {x : Except Failure α}
    {y : Except Failure β} {f : α → Except Failure α'} {g : β → Except Failure β'}
    (h : Agree view view' x y)
    (hfg : ∀ a b, (view a).1 = (view' b).1 → Token.Alike (view a).2 (view' b).2 →
      Agree later later' (f a) (g b)) : Agree later later' (x >>= f) (y >>= g) := by
  cases h with
  | ok value rest => exact hfg _ _ value rest
  | error h => exact .error h

theorem agree_refused {view : α → γ × List Token} {view' : β → γ × List Token} (problem : Problem)
    (h : Alike ts us) :
    Agree view view' (.error (.refused problem ts)) (.error (.refused problem us)) :=
  .error (.refused problem h)

/-! ## Single tokens -/

theorem agree_close (image : String) (h : Alike ts us) :
    Agree Read.view Read.view (close image ts) (close image us) := by
  cases h with
  | nil => exact agree_refused _ .nil
  | @cons t u ts us htu h =>
    rw [close, close, htu.2]
    split_ifs
    · exact .ok rfl h
    · exact agree_refused _ (.cons htu h)

theorem agree_symbol (h : Alike ts us) : Agree Read.view Read.view (symbol ts) (symbol us) := by
  cases h with
  | nil => exact agree_refused _ .nil
  | @cons t u ts us htu h =>
    rw [symbol, symbol, htu.1, htu.2]
    split_ifs
    · exact agree_refused _ (.cons htu h)
    · exact .error .namelessSymbol
    · exact .ok rfl h

theorem agree_constant {t u : Token} (himage : t.image = u.image) (h : Alike ts us) :
    Agree Read.view Read.view (constant t ts) (constant u us) := by
  rw [constant, constant, himage]
  cases number? u.image with
  | none => exact .error (.notANumber u.image)
  | some x => exact .ok rfl h

/-! ## Expressions -/

mutual

theorem agree_expression (ts us : List Token) (h : Alike ts us) :
    Agree Read.view Read.view (expression ts) (expression us) := by
  rw [expression, expression]
  refine (agree_term ts us h).bind fun first first' hvalue hrest => ?_
  have := first.shorter
  exact (agree_sums hvalue first.rest first'.rest hrest).bind fun all all' hvalue hrest =>
    .ok hvalue hrest
termination_by 4 * ts.length + 2

theorem agree_sums {left left' : Term} (hleft : left = left') (ts us : List Token)
    (h : Alike ts us) : Agree ReadOn.view ReadOn.view (sums left ts) (sums left' us) := by
  subst hleft
  cases h with
  | nil =>
    rw [sums]
    exact .ok rfl .nil
  | @cons t u ts us htu h =>
    have htag : sumTag? t = sumTag? u := by rw [sumTag?, sumTag?, htu.2]
    rw [sums, sums, htag]
    cases sumTag? u with
    | none => exact .ok rfl (.cons htu h)
    | some tag =>
      refine (agree_term ts us h).bind fun right right' hvalue hrest => ?_
      have := right.shorter
      have hleft : Term.binary tag left right.value = .binary tag left right'.value :=
        congrArg _ hvalue
      exact (agree_sums hleft right.rest right'.rest hrest).bind fun all all' hvalue hrest =>
        .ok hvalue hrest
termination_by 4 * ts.length

theorem agree_term (ts us : List Token) (h : Alike ts us) :
    Agree Read.view Read.view (term ts) (term us) := by
  rw [term, term]
  refine (agree_factor ts us h).bind fun first first' hvalue hrest => ?_
  have := first.shorter
  exact (agree_products hvalue first.rest first'.rest hrest).bind fun all all' hvalue hrest =>
    .ok hvalue hrest
termination_by 4 * ts.length + 1

theorem agree_products {left left' : Term} (hleft : left = left') (ts us : List Token)
    (h : Alike ts us) : Agree ReadOn.view ReadOn.view (products left ts) (products left' us) := by
  subst hleft
  cases h with
  | nil =>
    rw [products]
    exact .ok rfl .nil
  | @cons t u ts us htu h =>
    have htag : productTag? t = productTag? u := by rw [productTag?, productTag?, htu.2]
    rw [products, products, htag]
    cases productTag? u with
    | none => exact .ok rfl (.cons htu h)
    | some tag =>
      refine (agree_factor ts us h).bind fun right right' hvalue hrest => ?_
      have := right.shorter
      have hleft : Term.binary tag left right.value = .binary tag left right'.value :=
        congrArg _ hvalue
      exact (agree_products hleft right.rest right'.rest hrest).bind fun all all' hvalue hrest =>
        .ok hvalue hrest
termination_by 4 * ts.length

theorem agree_factor (ts us : List Token) (h : Alike ts us) :
    Agree Read.view Read.view (factor ts) (factor us) := by
  cases h with
  | nil =>
    rw [factor.eq_def]
    exact agree_refused _ .nil
  | @cons t u ts us htu h =>
    rw [factor.eq_def, factor.eq_def]
    dsimp only
    rw [htu.1, htu.2]
    split_ifs with hminus hopen hvector hconstant hsymbol hname
    · exact (agree_factor ts us h).bind fun operand operand' hvalue hrest =>
        .ok (congrArg (Term.unary "$neg") hvalue) hrest
    · refine (agree_expression ts us h).bind fun inner inner' hvalue hrest => ?_
      exact (agree_close ")" hrest).bind fun closed closed' _ hrest => .ok hvalue hrest
    · exact (agree_arguments "]" ts us h).bind fun args args' hvalue hrest =>
        .ok (congrArg (Term.app (.sym "$vec")) hvalue) hrest
    · exact agree_constant htu.2 h
    · exact .error .namelessSymbol
    · cases h with
      | nil => exact .ok rfl .nil
      | @cons o p ts us hop h =>
        dsimp only
        rw [hop.2]
        split_ifs
        · exact (agree_arguments ")" ts us h).bind fun args args' hvalue hrest =>
            .ok (congrArg (Term.app (.sym u.image)) hvalue) hrest
        · exact .ok rfl (.cons hop h)
    · exact agree_refused _ (.cons htu h)
termination_by 4 * ts.length

theorem agree_arguments (closer : String) (ts us : List Token) (h : Alike ts us) :
    Agree Read.view Read.view (arguments closer ts) (arguments closer us) := by
  rw [arguments, arguments]
  refine (agree_expression ts us h).bind fun first first' hfirst hrest => ?_
  have := first.shorter
  exact (agree_moreArguments closer first.rest first'.rest hrest).bind
    fun others others' hothers hrest => .ok (congrArg₂ List.cons hfirst hothers) hrest
termination_by 4 * ts.length + 3

theorem agree_moreArguments (closer : String) (ts us : List Token) (h : Alike ts us) :
    Agree Read.view Read.view (moreArguments closer ts) (moreArguments closer us) := by
  cases h with
  | nil =>
    rw [moreArguments]
    exact agree_refused _ .nil
  | @cons t u ts us htu h =>
    rw [moreArguments, moreArguments, htu.2]
    split_ifs
    · refine (agree_expression ts us h).bind fun next next' hnext hrest => ?_
      have := next.shorter
      exact (agree_moreArguments closer next.rest next'.rest hrest).bind
        fun others others' hothers hrest => .ok (congrArg₂ List.cons hnext hothers) hrest
    · exact (agree_close closer (.cons htu h)).bind fun closed closed' _ hrest => .ok rfl hrest
termination_by 4 * ts.length

end

/-! ## Statements -/

theorem isAssignment_eq_of_alike (h : Alike ts us) : isAssignment ts = isAssignment us := by
  cases h with
  | nil => rfl
  | cons htu h =>
    cases h with
    | nil => rfl
    | cons hop h => rw [isAssignment, isAssignment, hop.2]

theorem agree_statement (h : Alike ts us) :
    Agree Read.view Read.view (statement ts) (statement us) := by
  rw [statement, statement, isAssignment_eq_of_alike h]
  split_ifs
  · refine (agree_symbol h).bind fun name name' hname hrest => ?_
    refine (agree_close "=" hrest).bind fun sign sign' _ hrest => ?_
    exact (agree_expression _ _ hrest).bind fun definition definition' hdefinition hrest =>
      .ok (congrArg₂ (Term.binary "$let") hname hdefinition) hrest
  · exact agree_expression ts us h

/-- Tokens that are alike are the same statement as a whole, or none alike. -/
theorem agree_whole (h : Alike ts us) :
    Agree (fun v => (v, [])) (fun v => (v, [])) (whole ts) (whole us) := by
  refine (agree_statement h).bind fun read read' hvalue hrest => ?_
  have hempty : read.rest.isEmpty = read'.rest.isEmpty := by
    have hlength : read.rest.length = read'.rest.length := List.Forall₂.length_eq hrest
    rw [Bool.eq_iff_iff, List.isEmpty_iff_length_eq_zero, List.isEmpty_iff_length_eq_zero, hlength]
  rw [hempty]
  split_ifs
  · exact .ok hvalue .nil
  · exact agree_refused _ hrest

end Parser

namespace Term

variable {ts us : List Token}

/-- Tokens that are alike are read as the same term, or they are refused at the same place. -/
theorem ofSignificant?_eq_of_alike (h : Alike ts us) : ofSignificant? ts = ofSignificant? us := by
  have hwhole := Parser.agree_whole h
  rw [ofSignificant?, ofSignificant?]
  generalize Parser.whole ts = x at hwhole ⊢
  generalize Parser.whole us = y at hwhole ⊢
  cases hwhole with
  | ok value rest => exact congrArg Except.ok value
  | error he =>
    cases he with
    | refused problem hrest =>
      dsimp only
      rw [List.Forall₂.length_eq h, List.Forall₂.length_eq hrest]
    | notANumber image => rfl
    | namelessSymbol => rfl

/-- **Spacing.** The tokens of a text that the grammar sees, written with single blanks between them,
are cut into tokens of the same kinds and images. What they are read as is what the text is read as:
the same term, or they are refused for the same problem at the same one of them. -/
theorem read?_spaced {source : String} (h : Token.read? source = .ok ts) :
    ∃ us, Token.read? (spaced (significant ts)) = .ok us ∧
      Alike (significant us) (significant ts) ∧
      (∀ v, read? source = .ok v → read? (spaced (significant ts)) = .ok v) ∧
      ∀ e, read? source = .error e → ∃ problem index,
        index ≤ (significant ts).length ∧ e = .noStatement ts (.refused problem index) ∧
        read? (spaced (significant ts)) = .error (.noStatement us (.refused problem index)) := by
  obtain ⟨us, hus, halike⟩ := Token.exists_read?_spaced h
  have hread : read? source = parse? ts := by rw [read?, h]; rfl
  have hread' : read? (spaced (significant ts)) = parse? us := by rw [read?, hus]; rfl
  have hsame : ofTokens? us = ofTokens? ts := ofSignificant?_eq_of_alike halike
  rw [parse?] at hread hread'
  rw [hsame] at hread'
  refine ⟨us, hus, halike, ?_, ?_⟩
  · intro v hv
    cases hterm : ofTokens? ts with
    | ok w =>
      rw [hterm] at hread hread'
      exact hread'.trans (hread.symm.trans hv)
    | error e =>
      rw [hterm] at hread
      cases hread.symm.trans hv
  · intro e he
    obtain ⟨problem, index, rfl, hindex⟩ :=
      refused_of_parse? (Token.read?_eq_ok_iff.1 h) (hread.symm.trans he)
    refine ⟨problem, index, hindex, rfl, ?_⟩
    cases hterm : ofTokens? ts with
    | ok w =>
      rw [hterm] at hread
      cases hread.symm.trans he
    | error e =>
      rw [hterm] at hread hread'
      obtain ⟨-, rfl⟩ := ReadError.noStatement.inj (Except.error.inj (hread.symm.trans he))
      exact hread'

/-- Without blanks between them a minus sign is told from that of a number, and a comment from both;
a number is told from a name or another number, and what follows it is refused. -/
theorem read?_spaced_of_close_tokens :
    (∃ ts, Token.read? "a=3*-1.5-x--c" = .ok ts ∧ spaced (significant ts) = "a = 3 * -1.5 - x" ∧
      ∃ v, read? "a=3*-1.5-x--c" = .ok v ∧ read? "a = 3 * -1.5 - x" = .ok v) ∧
    ∃ ts us, Token.read? "1.5.5NaNx->3abc" = .ok ts ∧
      spaced (significant ts) = "1.5 .5 NaN x -> 3 abc" ∧
      Alike (significant us) (significant ts) ∧
      read? "1.5.5NaNx->3abc" = .error (.noStatement ts (.refused .trailingInput 1)) ∧
      read? "1.5 .5 NaN x -> 3 abc" = .error (.noStatement us (.refused .trailingInput 1)) := by
  constructor
  · have hread : Token.read? "a=3*-1.5-x--c" = .ok
        [⟨.symbol, "a", 0⟩, ⟨.operator, "=", 1⟩, ⟨.constant, "3", 2⟩, ⟨.operator, "*", 3⟩,
          ⟨.constant, "-1.5", 4⟩, ⟨.operator, "-", 8⟩, ⟨.symbol, "x", 9⟩, ⟨.comment, "--c", 10⟩] := by
      decide +kernel
    have hvalue : read? "a=3*-1.5-x--c" = .ok (.binary "$let" (.sym "a")
        (.binary "$sub" (.binary "$mul" (.const 3) (.const (-1.5))) (.sym "x"))) := by
      with_unfolding_all rfl
    obtain ⟨us, -, -, hok, -⟩ := read?_spaced hread
    exact ⟨_, hread, by decide +kernel, _, hvalue, hok _ hvalue⟩
  · obtain ⟨ts, hread, himages, hparse⟩ : ∃ ts, Token.read? "1.5.5NaNx->3abc" = .ok ts ∧
        spaced (significant ts) = "1.5 .5 NaN x -> 3 abc" ∧
        parse? ts = .error (.noStatement ts (.refused .trailingInput 1)) :=
      ⟨[⟨.constant, "1.5", 0⟩, ⟨.constant, ".5", 3⟩, ⟨.constant, "NaN", 5⟩, ⟨.symbol, "x", 8⟩,
          ⟨.operator, "->", 9⟩, ⟨.constant, "3", 11⟩, ⟨.symbol, "abc", 12⟩],
        by decide +kernel, by decide +kernel, by with_unfolding_all rfl⟩
    have hrefused : read? "1.5.5NaNx->3abc" = parse? ts := by rw [read?, hread]; rfl
    obtain ⟨us, -, halike, -, herror⟩ := read?_spaced hread
    obtain ⟨problem, index, -, he, hspaced⟩ := herror _ (hrefused.trans hparse)
    obtain ⟨-, hproblem⟩ := ReadError.noStatement.inj he
    obtain ⟨rfl, rfl⟩ := ParseError.refused.inj hproblem
    rw [himages] at hspaced
    exact ⟨ts, us, hread, himages, halike, hrefused.trans hparse, hspaced⟩

end Term

end TermCalc
