import TermCalc.Proofs.Token.Lexemes
import TermCalc.Term.Reader

/-!
# Where reading stops

The reading functions take tokens from the front of a list and nothing else. What they leave, and
what a refusal records, is what is left of the list, and every other failure is about one of its
tokens. The tokens of a text give no cause for such a failure, so a text that is cut into tokens and
is no statement is refused at one of them or at its end.

## Main definitions

* `Parser.Failure.Blames e ts`: the failure `e` is about the tokens `ts`
* `Parser.Stays ts rest r`: the reading `r` leaves a part of `ts`, or fails on account of it

## Main results

* `Parser.stays_expression`, `Parser.stays_factor`, …: no reading function leaves its tokens
* `Parser.blames_of_whole`: what is known of the failure to read a statement
* `Term.refused_of_parse?`: a text that is cut into tokens is refused at one of them or at its end
-/

namespace TermCalc

namespace Parser

variable {α β : Type} {ts us : List Token}

/-! ## Failures and their tokens -/

/-- The failure is about the tokens: a refusal records an end of them, and every other failure is
about one of them. -/
def Failure.Blames (ts : List Token) : Failure → Prop
  | .refused _ rest => rest <:+ ts
  | .notANumber image => ∃ t ∈ ts, t.kind = .constant ∧ t.image = image ∧ number? image = none
  | .namelessSymbol => ∃ t ∈ ts, t.kind = .symbol ∧ t.image = ""

theorem Failure.Blames.mono {e : Failure} (h : e.Blames us) (hs : us <:+ ts) : e.Blames ts := by
  cases e with
  | refused problem rest => exact List.IsSuffix.trans h hs
  | notANumber image =>
    obtain ⟨t, ht, himage⟩ := h
    exact ⟨t, hs.mem ht, himage⟩
  | namelessSymbol =>
    obtain ⟨t, ht, himage⟩ := h
    exact ⟨t, hs.mem ht, himage⟩

/-- The reading leaves an end of the tokens, or its failure is about them. -/
def Stays (ts : List Token) (rest : α → List Token) : Except Failure α → Prop
  | .ok a => rest a <:+ ts
  | .error e => e.Blames ts

theorem Stays.mono {rest : α → List Token} {r : Except Failure α} (h : Stays us rest r)
    (hs : us <:+ ts) : Stays ts rest r := by
  cases r with
  | ok a => exact List.IsSuffix.trans h hs
  | error e => exact Failure.Blames.mono h hs

/-- One reading after another. -/
theorem Stays.bind {rest : α → List Token} {rest' : β → List Token} {x : Except Failure α}
    {f : α → Except Failure β} (hx : Stays ts rest x) (hf : ∀ a, Stays (rest a) rest' (f a)) :
    Stays ts rest' (x >>= f) := by
  cases x with
  | ok a => exact (hf a).mono hx
  | error e => exact hx

theorem stays_tail {t : Token} {rest : α → List Token} {r : Except Failure α}
    (h : Stays ts rest r) : Stays (t :: ts) rest r :=
  h.mono (List.suffix_cons t ts)

/-! ## Single tokens -/

theorem stays_close (image : String) (ts : List Token) : Stays ts Read.rest (close image ts) := by
  cases ts with
  | nil => exact List.suffix_rfl
  | cons t ts =>
    rw [close]
    split
    · exact List.suffix_cons t ts
    · exact List.suffix_rfl

theorem stays_symbol (ts : List Token) : Stays ts Read.rest (symbol ts) := by
  cases ts with
  | nil => exact List.suffix_rfl
  | cons t ts =>
    rw [symbol]
    split
    · exact List.suffix_rfl
    · next hk =>
      split
      · next hn => exact ⟨t, List.mem_cons_self, not_not.1 hk, hn⟩
      · exact List.suffix_cons t ts

theorem stays_constant {t : Token} (hk : t.kind = .constant) (ts : List Token) :
    Stays (t :: ts) Read.rest (constant t ts) := by
  rw [constant]
  split
  · exact List.suffix_cons t ts
  · next hn => exact ⟨t, List.mem_cons_self, hk, rfl, hn⟩

/-! ## Expressions -/

-- The recursion of the reading functions carries the induction: each rest is shorter than its list.
mutual

theorem stays_expression (ts : List Token) : Stays ts Read.rest (expression ts) := by
  rw [expression]
  refine (stays_term ts).bind fun first => ?_
  have := first.shorter
  exact (stays_sums first.value first.rest).bind fun all => List.suffix_rfl
termination_by 4 * ts.length + 2

theorem stays_sums (left : Term) (ts : List Token) : Stays ts ReadOn.rest (sums left ts) := by
  cases ts with
  | nil =>
    rw [sums]
    exact List.suffix_rfl
  | cons t ts =>
    rw [sums]
    cases sumTag? t with
    | none => exact List.suffix_rfl
    | some tag =>
      refine stays_tail ((stays_term ts).bind fun right => ?_)
      have := right.shorter
      exact (stays_sums _ right.rest).bind fun all => List.suffix_rfl
termination_by 4 * ts.length

theorem stays_term (ts : List Token) : Stays ts Read.rest (term ts) := by
  rw [term]
  refine (stays_factor ts).bind fun first => ?_
  have := first.shorter
  exact (stays_products first.value first.rest).bind fun all => List.suffix_rfl
termination_by 4 * ts.length + 1

theorem stays_products (left : Term) (ts : List Token) :
    Stays ts ReadOn.rest (products left ts) := by
  cases ts with
  | nil =>
    rw [products]
    exact List.suffix_rfl
  | cons t ts =>
    rw [products]
    cases productTag? t with
    | none => exact List.suffix_rfl
    | some tag =>
      refine stays_tail ((stays_factor ts).bind fun right => ?_)
      have := right.shorter
      exact (stays_products _ right.rest).bind fun all => List.suffix_rfl
termination_by 4 * ts.length

theorem stays_factor (ts : List Token) : Stays ts Read.rest (factor ts) := by
  cases ts with
  | nil =>
    rw [factor.eq_def]
    exact List.suffix_rfl
  | cons t ts =>
    rw [factor.eq_def]
    dsimp only
    split_ifs with hminus hopen hvector hconstant hsymbol hname
    · exact stays_tail ((stays_factor ts).bind fun operand => List.suffix_rfl)
    · refine stays_tail ((stays_expression ts).bind fun inner => ?_)
      exact (stays_close ")" inner.rest).bind fun closed => List.suffix_rfl
    · exact stays_tail ((stays_arguments "]" ts).bind fun args => List.suffix_rfl)
    · exact stays_constant hconstant ts
    · exact ⟨t, List.mem_cons_self, hsymbol, hname⟩
    · cases ts with
      | nil => exact List.suffix_cons t []
      | cons o ts =>
        dsimp only
        split_ifs
        · refine stays_tail (stays_tail ?_)
          exact (stays_arguments ")" ts).bind fun args => List.suffix_rfl
        · exact List.suffix_cons t (o :: ts)
    · exact List.suffix_rfl
termination_by 4 * ts.length

theorem stays_arguments (closer : String) (ts : List Token) :
    Stays ts Read.rest (arguments closer ts) := by
  rw [arguments]
  refine (stays_expression ts).bind fun first => ?_
  have := first.shorter
  exact (stays_moreArguments closer first.rest).bind fun others => List.suffix_rfl
termination_by 4 * ts.length + 3

theorem stays_moreArguments (closer : String) (ts : List Token) :
    Stays ts Read.rest (moreArguments closer ts) := by
  cases ts with
  | nil =>
    rw [moreArguments]
    exact List.suffix_rfl
  | cons t ts =>
    rw [moreArguments]
    split_ifs
    · refine stays_tail ((stays_expression ts).bind fun next => ?_)
      have := next.shorter
      exact (stays_moreArguments closer next.rest).bind fun others => List.suffix_rfl
    · exact (stays_close closer (t :: ts)).bind fun closed => List.suffix_rfl
termination_by 4 * ts.length

end

/-! ## Statements -/

theorem stays_statement (ts : List Token) : Stays ts Read.rest (statement ts) := by
  rw [statement]
  split_ifs
  · refine (stays_symbol ts).bind fun name => (stays_close "=" name.rest).bind fun sign => ?_
    exact (stays_expression sign.rest).bind fun definition => List.suffix_rfl
  · exact stays_expression ts

/-- The failure to read a statement is about its tokens. -/
theorem blames_of_whole {e : Failure} (h : whole ts = .error e) : e.Blames ts := by
  have hstatement := stays_statement ts
  rw [whole] at h
  cases hread : statement ts with
  | error e' =>
    rw [hread] at h hstatement
    obtain rfl : e' = e := Except.error.inj h
    exact hstatement
  | ok a =>
    rw [hread] at h hstatement
    change (if a.rest.isEmpty then Except.ok a.value else _) = _ at h
    split_ifs at h with hrest
    obtain rfl : Failure.refused .trailingInput a.rest = e := Except.error.inj h
    exact hstatement

/-- Tokens of a text are refused at one of them or at their end. -/
theorem refused_of_whole {e : Failure} (hl : ∀ t ∈ ts, t.Lexical) (h : whole ts = .error e) :
    ∃ problem rest, e = .refused problem rest ∧ rest <:+ ts := by
  have hblames := blames_of_whole h
  cases e with
  | refused problem rest => exact ⟨problem, rest, rfl, hblames⟩
  | notANumber image =>
    obtain ⟨t, ht, hk, himage, hn⟩ := hblames
    have hnumber := (hl t ht).number hk
    rw [himage, hn] at hnumber
    cases hnumber
  | namelessSymbol =>
    obtain ⟨t, ht, hk, himage⟩ := hblames
    exact absurd himage ((hl t ht).named hk)

end Parser

/-! ## From the text on -/

/-- A text that is cut into tokens and is no statement is refused at one of its significant tokens
or at their end. -/
theorem Term.refused_of_parse? {source : String} {tokens : List Token} {e : ReadError}
    (htokens : Token.ofSource? source = .ok tokens) (h : parse? tokens = .error e) :
    ∃ problem index, e = .noStatement tokens (.refused problem index) ∧
      index ≤ (Token.significant tokens).length := by
  rw [parse?, ofTokens?, ofSignificant?] at h
  cases hwhole : Parser.whole (Token.significant tokens) with
  | ok v =>
    rw [hwhole] at h
    cases h
  | error f =>
    obtain ⟨problem, rest, rfl, -⟩ :=
      Parser.refused_of_whole (Token.lexical_of_mem_significant htokens) hwhole
    rw [hwhole] at h
    exact ⟨problem, _, (Except.error.inj h).symm, Nat.sub_le _ _⟩

end TermCalc
