import TermCalc.Proofs.Term.Lookahead
import TermCalc.Proofs.Term.Readable
import TermCalc.Proofs.Term.Viable

/-!
# A refusal is at the first impossible token

Where tokens are refused, those in front of that place can still be continued to a statement, and
with the token at that place they no longer can: not in the way in which the parser took them, and
not in any other way that the grammar has. The exception is an assignment to something that is no
symbol, which is refused at its first token.

The grammar derives lists with tokens that no text has, such as a symbol with the image of a
bracket. Nothing is lost if such symbols get other names, and then the parser accepts the list.

## Main definitions

* `Token.legible t`: `t` with another name if it is a symbol that no text has
* `Parser.StopsAt ts rest`: an expression is read or refused in front of `rest`, and that is not all
* `Grammar.MisplacedSign ts`: `ts` begins with something that is no symbol and the sign `=`

## Main results

* `Grammar.Expression.legible`: expressions stay expressions under the other names
* `Parser.StopsAt.viable`, `Parser.StopsAt.not_expression`: what stands in front of the place
* `Term.parse?_refused_at_first_impossible`: refusals of the tokens of a text
-/

namespace TermCalc

open Grammar

/-! ## Other names for symbols -/

/-- The token with another name if it is a symbol that is not told from a mark, or has no name. -/
def Token.legible (t : Token) : Token :=
  if t.kind = .symbol ∧ (t.image ∈ marks ∨ t.image = "") then { t with image := "x" } else t

namespace Token

variable {t : Token} {mark : String}

theorem legible_eq_self_of_kind (h : t.kind ≠ .symbol) : t.legible = t :=
  if_neg fun hs => h hs.1

theorem Lexical.legible_eq_self (h : t.Lexical) : t.legible = t := by
  refine if_neg ?_
  rintro ⟨hk, hm | hn⟩
  · exact absurd ((h.operator hm).symm.trans hk) (by decide)
  · exact h.named hk hn

theorem Is.legible_eq_self (h : t.Is mark) : t.legible = t :=
  legible_eq_self_of_kind (by rw [h.1]; decide)

theorem Is.lexical (h : t.Is mark) : t.Lexical :=
  ⟨fun _ => h.1, fun hk => absurd (h.1.symm.trans hk) (by decide),
    fun hk => absurd (h.1.symm.trans hk) (by decide)⟩

theorem kind_legible_of_symbol (h : t.kind = .symbol) : t.legible.kind = .symbol := by
  rw [legible]
  split
  · exact h
  · exact h

theorem lexical_legible_of_symbol (h : t.kind = .symbol) : t.legible.Lexical := by
  by_cases hname : t.image ∈ marks ∨ t.image = ""
  · rw [legible, if_pos ⟨h, hname⟩]
    have hx : "x" ∉ marks := by decide
    exact ⟨fun hm => absurd hm hx, fun _ => (by decide : "x" ≠ ""),
      fun hk => absurd (h.symm.trans hk) (by decide)⟩
  · rw [legible, if_neg fun hs => hname hs.2]
    exact ⟨fun hm => absurd (.inl hm) hname, fun _ hn => hname (.inr hn),
      fun hk => absurd (h.symm.trans hk) (by decide)⟩

/-- A constant that denotes a number has the image of no mark. -/
theorem lexical_of_number (hk : t.kind = .constant) (hx : (number? t.image).isSome = true) :
    t.Lexical := by
  refine ⟨fun hm => ?_, fun hs => absurd (hk.symm.trans hs) (by decide), fun _ => hx⟩
  exact absurd (hx.symm.trans (marks_foreign _ hm).1) (by decide)

end Token

namespace Grammar

/-- Under the other names the tokens are ones that a text may have, and something of the same sort
is derived. -/
def Legible {α : Type} (P : List Token → α → Prop) (ts : List Token) : Prop :=
  (∀ t ∈ ts.map Token.legible, t.Lexical) ∧ ∃ v, P (ts.map Token.legible) v

/-- Two derived parts with a mark between them. -/
theorem Legible.infix {α β γ : Type} {P : List Token → α → Prop} {Q : List Token → β → Prop}
    {R : List Token → γ → Prop} {ls rs : List Token} {t : Token} {mark : String}
    (hl : Legible P ls) (ht : t.Is mark) (hr : Legible Q rs)
    (h : ∀ ls rs l r, P ls l → Q rs r → ∃ v, R (ls ++ t :: rs) v) : Legible R (ls ++ t :: rs) := by
  obtain ⟨hll, l, hl⟩ := hl
  obtain ⟨hlr, r, hr⟩ := hr
  rw [Legible, List.map_append, List.map_cons, ht.legible_eq_self]
  exact ⟨List.forall_mem_append.2 ⟨hll, List.forall_mem_cons.2 ⟨ht.lexical, hlr⟩⟩, h _ _ _ _ hl hr⟩

/-- A derived part in brackets. -/
theorem Legible.enclosed {α β : Type} {P : List Token → α → Prop} {Q : List Token → β → Prop}
    {ts : List Token} {t c : Token} {opener closer : String} (ht : t.Is opener)
    (hts : Legible P ts) (hc : c.Is closer) (h : ∀ ts v, P ts v → ∃ w, Q (t :: ts ++ [c]) w) :
    Legible Q (t :: ts ++ [c]) := by
  obtain ⟨hl, v, hts⟩ := hts
  simp only [Legible, List.map_append, List.map_cons, List.map_nil, ht.legible_eq_self,
    hc.legible_eq_self]
  refine ⟨List.forall_mem_append.2 ⟨List.forall_mem_cons.2 ⟨ht.lexical, hl⟩, ?_⟩, h _ _ hts⟩
  exact List.forall_mem_singleton.2 hc.lexical

mutual

-- induction on derivations: no rule depends on the name of a symbol
/-- An expression is an expression under the other names as well. -/
theorem Expression.legible {ts : List Token} {v : Term} (h : Expression ts v) :
    Legible Expression ts := by
  match h with
  | .product hp =>
    obtain ⟨hl, v, hp⟩ := hp.legible
    exact ⟨hl, v, .product hp⟩
  | .sum hls ht hm hrs =>
    exact hls.legible.infix ht hrs.legible fun _ _ _ _ hl hr => ⟨_, .sum hl ht hm hr⟩

theorem Product.legible {ts : List Token} {v : Term} (h : Product ts v) : Legible Product ts := by
  match h with
  | .factor hf =>
    obtain ⟨hl, v, hf⟩ := hf.legible
    exact ⟨hl, v, .factor hf⟩
  | .product hls ht hm hrs =>
    exact hls.legible.infix ht hrs.legible fun _ _ _ _ hl hr => ⟨_, .product hl ht hm hr⟩

theorem Factor.legible {ts : List Token} {v : Term} (h : Factor ts v) : Legible Factor ts := by
  match h with
  | .negation ht hf =>
    obtain ⟨hl, v, hf⟩ := hf.legible
    rw [Legible, List.map_cons, ht.legible_eq_self]
    exact ⟨List.forall_mem_cons.2 ⟨ht.lexical, hl⟩, _, .negation ht hf⟩
  | .group ht he hc =>
    exact .enclosed ht he.legible hc fun _ _ he => ⟨_, .group ht he hc⟩
  | .vector ht ha hc =>
    exact .enclosed ht ha.legible hc fun _ _ ha => ⟨_, .vector ht ha hc⟩
  | .constant hk hx =>
    have hl := Token.lexical_of_number hk (by rw [hx]; rfl)
    rw [Legible, List.map_singleton, hl.legible_eq_self]
    exact ⟨List.forall_mem_singleton.2 hl, _, .constant hk hx⟩
  | .symbol hk =>
    exact ⟨List.forall_mem_singleton.2 (Token.lexical_legible_of_symbol hk), _,
      .symbol (Token.kind_legible_of_symbol hk)⟩
  | @Factor.call t o ts vs c hk ho ha hc =>
    have hkind := Token.kind_legible_of_symbol hk
    obtain ⟨hl, ws, hname, hcall⟩ : Legible (fun us w => t.legible.kind = .symbol ∧
        Factor (t.legible :: us) w) (o :: ts ++ [c]) :=
      .enclosed ho ha.legible hc fun _ _ ha => ⟨_, hkind, .call hkind ho ha hc⟩
    exact ⟨List.forall_mem_cons.2 ⟨Token.lexical_legible_of_symbol hk, hl⟩, ws, hcall⟩

theorem Arguments.legible {ts : List Token} {vs : List Term} (h : Arguments ts vs) :
    Legible Arguments ts := by
  match h with
  | .one he =>
    obtain ⟨hl, v, he⟩ := he.legible
    exact ⟨hl, [v], .one he⟩
  | .more he ht ha =>
    exact he.legible.infix ht ha.legible fun _ _ _ _ he ha => ⟨_, .more he ht ha⟩

end

end Grammar

/-! ## Expressions that end too early -/

namespace Parser

variable {ts us rest suf more : List Token} {t u : Token} {v : Term}

/-- An expression is read in front of `rest`, which is not empty, or it is refused there. -/
def StopsAt (ts rest : List Token) : Prop :=
  Refuses (expression ts) rest ∨ (∃ v, Gives (expression ts) v rest) ∧ rest ≠ []

/-- What stands in front of the place can be continued to an expression. -/
theorem StopsAt.viable (hl : ∀ t ∈ ts, t.Lexical) (h : StopsAt ts rest) :
    ∃ us, ts = us ++ rest ∧ Viable Expression us := by
  obtain hrefused | ⟨⟨v, hgiven⟩, -⟩ := h
  · exact expression_viable ts hl hrefused
  · obtain ⟨us, rfl, he⟩ := expression_sound ts hl hgiven
    exact ⟨us, rfl, Viable.of he⟩

/-- With the token at that place it can not. -/
theorem StopsAt.not_expression (hl : ∀ t ∈ us ++ u :: suf, t.Lexical)
    (h : StopsAt (us ++ u :: suf) (u :: suf)) : ¬ Expression (us ++ u :: more) v := by
  intro he
  have hself : (us ++ [u]).map Token.legible = us ++ [u] := by
    refine List.map_congr_left (fun t ht => (hl t ?_).legible_eq_self) |>.trans (List.map_id _)
    rw [List.append_cons]
    exact List.mem_append_left suf ht
  rw [List.append_cons] at he h
  obtain ⟨hlexical, w, he⟩ := he.legible
  rw [List.map_append, hself] at he hlexical
  have hread := expression_complete he hlexical endsExpression_nil.endsProduct
    (endsExpression_nil.givesOn w)
  rw [List.append_nil] at hread
  have hkept : [u] ≠ [] := List.cons_ne_nil u []
  obtain hrefused | ⟨⟨v', hgiven⟩, -⟩ := h
  · exact (refuses_expression_local _ hkept hrefused).not_gives hread
  · have hpart := (gives_expression_local _ hkept hgiven).rest_unique hread
    exact absurd hpart (List.cons_ne_nil _ _)

/-! ## Statements that end too early -/

theorem stopsAt_of_not_assignment (ha : isAssignment ts = false) (h : Refuses (whole ts) rest) :
    StopsAt ts rest := by
  rw [refuses_whole, statement_of_not_assignment ha] at h
  exact h

theorem stopsAt_of_assignment {s : Token} (hs : s.image = "=") (hk : t.kind = .symbol)
    (h : Refuses (whole (t :: s :: ts)) rest) : StopsAt ts rest := by
  obtain hrefused | ⟨⟨v, hgiven⟩, hne⟩ := refuses_whole.1 h
  · obtain ⟨-, hk'⟩ | ⟨-, -, hdefinition⟩ := (refuses_statement_of_assignment hs).1 hrefused
    · exact absurd hk hk'
    · exact .inl hdefinition
  · have ha : isAssignment (t :: s :: ts) = true := beq_iff_eq.2 hs
    obtain ⟨_, _, _, w, ⟨⟩, -, -, -, -, hw⟩ := (gives_statement_of_assignment ha).1 hgiven
    exact .inr ⟨⟨w, hw⟩, hne⟩

end Parser

/-- The tokens begin with something that is no symbol and the sign of an assignment. -/
def Grammar.MisplacedSign (ts : List Token) : Prop :=
  ∃ t s us, ts = t :: s :: us ∧ s.image = "=" ∧ t.kind ≠ .symbol

namespace Parser

variable {ts rest : List Token}

theorem not_statement_of_refuses {v : Term} (hl : ∀ t ∈ ts, t.Lexical)
    (h : Refuses (whole ts) rest) : ¬ Statement ts v := by
  intro hv
  obtain ⟨problem, h⟩ := h
  cases h.symm.trans (whole_eq_ok_iff.2 ((gives_statement_iff hl).2 hv))

/-- What is assigned to something that is no symbol is refused at once. -/
theorem eq_of_misplacedSign (hm : MisplacedSign ts) (h : Refuses (whole ts) rest) : rest = ts := by
  obtain ⟨t, s, us, rfl, hs, hk⟩ := hm
  have ha : isAssignment (t :: s :: us) = true := beq_iff_eq.2 hs
  obtain hrefused | ⟨⟨v, hgiven⟩, -⟩ := refuses_whole.1 h
  · obtain ⟨hrest, -⟩ | ⟨hsym, -⟩ := (refuses_statement_of_assignment hs).1 hrefused
    · exact hrest
    · exact absurd hsym hk
  · obtain ⟨_, _, _, _, ⟨⟩, hsym, -⟩ := (gives_statement_of_assignment ha).1 hgiven
    exact absurd hsym hk

/-- Every other list is refused in front of the first token with which it can not be continued to a
statement. -/
theorem first_impossible_of_refuses (hl : ∀ t ∈ ts, t.Lexical) (hm : ¬ MisplacedSign ts)
    (h : Refuses (whole ts) rest) : ∃ us, ts = us ++ rest ∧ Viable Statement us ∧
      ∀ u suf, rest = u :: suf → ∀ more v, ¬ Statement (us ++ u :: more) v := by
  cases ha : isAssignment ts with
  | true =>
    match ts, ha with
    | t :: s :: ds, ha =>
      have hs : s.image = "=" := beq_iff_eq.1 ha
      have hk : t.kind = .symbol := by_contra fun hk => hm ⟨t, s, ds, rfl, hs, hk⟩
      have hstops := stopsAt_of_assignment hs hk h
      obtain ⟨hsl, hds⟩ := List.forall_mem_cons.1 (List.forall_mem_cons.1 hl).2
      have hsign : s.Is "=" := hsl.is hs (by decide)
      obtain ⟨us, rfl, hviable⟩ := hstops.viable hds
      refine ⟨t :: s :: us, rfl, hviable.imp fun more v he => ⟨_, .assignment hk hsign he⟩, ?_⟩
      rintro u suf rfl more v hstatement
      change Statement (t :: s :: (us ++ u :: more)) v at hstatement
      cases hstatement with
      | assignment _ _ he => exact hstops.not_expression hds he
      | expression he => exact he.free_of_sign s (by simp) hsign
  | false =>
    have hstops := stopsAt_of_not_assignment ha h
    obtain ⟨us, rfl, hviable⟩ := hstops.viable hl
    refine ⟨us, rfl, hviable.imp fun more v he => ⟨v, .expression he⟩, ?_⟩
    rintro u suf rfl more v hstatement
    generalize hts : us ++ u :: more = ts at hstatement
    cases hstatement with
    | expression he =>
      subst hts
      exact hstops.not_expression hl he
    | @assignment t s ds w hk hs he =>
      match us with
      | [] =>
        obtain ⟨rfl, -⟩ := List.cons.inj hts
        have hsymbol : Expression [u] (.sym u.image) := .product (.factor (.symbol hk))
        exact hstops.not_expression hl hsymbol
      | [t'] =>
        obtain ⟨-, hts⟩ := List.cons.inj hts
        obtain ⟨rfl, -⟩ := List.cons.inj hts
        exact absurd (beq_iff_eq.2 hs.2) (Bool.eq_false_iff.1 ha)
      | t' :: s' :: us =>
        obtain ⟨-, hts⟩ := List.cons.inj hts
        obtain ⟨rfl, -⟩ := List.cons.inj hts
        exact absurd (beq_iff_eq.2 hs.2) (Bool.eq_false_iff.1 ha)

end Parser

/-! ## From the text on -/

namespace Term

/-- The index that is reported is that of the first token left. -/
theorem exists_refuses_of_parse? {source : String} {tokens : List Token} {e : ReadError}
    (htokens : Token.ofSource? source = .ok tokens) (h : parse? tokens = .error e) :
    ∃ problem us rest, Token.significant tokens = us ++ rest ∧
      Parser.Refuses (Parser.whole (Token.significant tokens)) rest ∧
      e = .noStatement tokens (.refused problem us.length) := by
  have hl := Token.lexical_of_mem_significant htokens
  rw [parse?, ofTokens?, ofSignificant?] at h
  cases hwhole : Parser.whole (Token.significant tokens) with
  | ok v =>
    rw [hwhole] at h
    cases h
  | error f =>
    obtain ⟨problem, rest, rfl, us, hus⟩ := Parser.refused_of_whole hl hwhole
    rw [hwhole] at h
    refine ⟨problem, us, rest, hus.symm, ⟨problem, rfl⟩, ?_⟩
    rw [← Except.error.inj h, ← hus, List.length_append, Nat.add_sub_cancel]

/-- **A refusal points at the first impossible token.** A text that is cut into tokens and is no
statement is refused at the index of one of its significant tokens, or behind the last of them. If
the second of them is `=` and the first is no symbol, the index is that of the first. In every other
case the tokens in front of the index can be continued to a statement; if there is a token at the
index, no statement begins with those tokens and that one, and otherwise the tokens are no statement
themselves. -/
theorem parse?_refused_at_first_impossible {source : String} {tokens : List Token} {e : ReadError}
    (hread : Token.read? source = .ok tokens) (h : parse? tokens = .error e) :
    ∃ problem p, e = .noStatement tokens (.refused problem p) ∧
      p ≤ (Token.significant tokens).length ∧
      (MisplacedSign (Token.significant tokens) → p = 0) ∧
      (¬ MisplacedSign (Token.significant tokens) →
        Viable Statement ((Token.significant tokens).take p) ∧
        (p < (Token.significant tokens).length →
          ∀ more v, ¬ Statement ((Token.significant tokens).take (p + 1) ++ more) v) ∧
        (p = (Token.significant tokens).length →
          ∀ v, ¬ Statement (Token.significant tokens) v)) := by
  have htokens := Token.read?_eq_ok_iff.1 hread
  have hl := Token.lexical_of_mem_significant htokens
  obtain ⟨problem, us, rest, hus, hrefuses, rfl⟩ := exists_refuses_of_parse? htokens h
  rw [hus] at hl hrefuses ⊢
  refine ⟨problem, us.length, rfl, by simp, fun hm => ?_, fun hm => ?_⟩
  · have heq := Parser.eq_of_misplacedSign hm hrefuses
    rw [List.append_left_eq_self.1 heq.symm, List.length_nil]
  · obtain ⟨us', hus', hviable, himpossible⟩ := Parser.first_impossible_of_refuses hl hm hrefuses
    obtain rfl := List.append_cancel_right hus'
    refine ⟨by rwa [List.take_left], fun hp => ?_, fun _ v => ?_⟩
    · cases rest with
      | nil => simp at hp
      | cons u suf =>
        intro more v
        rw [List.take_length_add_append, List.append_assoc]
        exact himpossible u suf rfl more v
    · exact Parser.not_statement_of_refuses hl hrefuses

/-- Behind the comma an operand is expected: with a bracket instead of one the call can not be
completed, whatever follows. -/
theorem parse?_refused_at_bracket_after_comma :
    ∃ tokens, Token.read? "y=f(2,)+x" = .ok tokens ∧
      parse? tokens = .error (.noStatement tokens (.refused .unexpectedToken 6)) ∧
      Viable Statement ((Token.significant tokens).take 6) ∧
      ∀ more v, ¬ Statement ((Token.significant tokens).take 7 ++ more) v := by
  have hread : Token.read? "y=f(2,)+x" = .ok
      [⟨.symbol, "y", 0⟩, ⟨.operator, "=", 1⟩, ⟨.symbol, "f", 2⟩, ⟨.operator, "(", 3⟩,
        ⟨.constant, "2", 4⟩, ⟨.operator, ",", 5⟩, ⟨.operator, ")", 6⟩, ⟨.operator, "+", 7⟩,
        ⟨.symbol, "x", 8⟩] := by
    decide +kernel
  have hparse : ∀ tokens, Token.read? "y=f(2,)+x" = .ok tokens →
      parse? tokens = .error (.noStatement tokens (.refused .unexpectedToken 6)) := by
    intro tokens h
    obtain rfl := Except.ok.inj (hread.symm.trans h)
    with_unfolding_all rfl
  obtain ⟨problem, p, he, -, -, hcase⟩ :=
    parse?_refused_at_first_impossible hread (hparse _ hread)
  obtain ⟨-, ⟨⟩⟩ := ReadError.noStatement.inj he
  obtain ⟨hviable, himpossible, -⟩ := hcase <| by
    rintro ⟨t, s, us, hts, -, hk⟩
    obtain ⟨rfl, -⟩ := List.cons.inj hts
    exact hk rfl
  exact ⟨_, hread, hparse _ hread, hviable, himpossible (by decide)⟩

end Term

end TermCalc
