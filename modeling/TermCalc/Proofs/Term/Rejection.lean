import TermCalc.Proofs.Term.Reading

/-!
# When the reading functions refuse

A reading function refuses its tokens if one of the functions that it calls does, or at the token
that it looks for itself and does not find. One lemma for each function, and for each way in which
it can begin, says where it refuses, in terms of what the functions that it calls give and where
they refuse. These lemmas stand beside those on what the functions give.

## Main definitions

* `Parser.Refuses r rest`: the reading `r` is refused where `rest` is left

## Main results

* `Parser.refuses_expression`, `Parser.refuses_sums_cons`: sums of products
* `Parser.refuses_term`, `Parser.refuses_products_cons`: products of factors
* `Parser.refuses_factor_minus`, …, `Parser.refuses_factor_other`: factors by their first tokens
* `Parser.refuses_arguments`, `Parser.refuses_moreArguments_comma`: arguments
* `Parser.refuses_statement_of_assignment`: assignments
-/

namespace TermCalc.Parser

variable {α β γ δ : Type} {ts us rest : List Token} {t : Token} {v : Term} {closer : String}

theorem forall_head_cons {p : Token → Prop} (h : p t) : ∀ u ∈ (t :: ts).head?, p u := by
  rintro _ ⟨⟩
  exact h

/-! ## Refused readings -/

/-- The reading is refused where `rest` is left. -/
def Refuses (r : Except Failure α) (rest : List Token) : Prop :=
  ∃ problem, r = .error (.refused problem rest)

/-- Nothing is given where reading is refused. -/
theorem Refuses.not_gives {r : Except Failure (Read α ts)} {v : α} {rest' : List Token}
    (h : Refuses r rest) : ¬ Gives r v rest' := by
  rintro ⟨a, ha, -⟩
  obtain ⟨problem, hr⟩ := h
  cases hr.symm.trans ha

theorem refuses_error {e : Failure} :
    Refuses (.error e : Except Failure α) rest ↔ ∃ problem, e = .refused problem rest :=
  exists_congr fun _ => ⟨fun h => Except.error.inj h, fun h => congrArg Except.error h⟩

theorem refuses_refused {problem : Problem} :
    Refuses (.error (.refused problem us) : Except Failure α) rest ↔ rest = us := by
  rw [refuses_error]
  constructor
  · rintro ⟨_, h⟩
    cases h
    rfl
  · rintro rfl
    exact ⟨problem, rfl⟩

theorem not_refuses_ok {a : α} : ¬ Refuses (.ok a : Except Failure α) rest :=
  fun ⟨_, h⟩ => nomatch h

/-! ## One reading after another -/

theorem refuses_bind {x : Except Failure (Read β us)} {f : Read β us → Except Failure α}
    {P : β → List Token → Prop} (hf : ∀ r, Refuses (f r) rest ↔ P r.value r.rest) :
    Refuses (x >>= f) rest ↔ Refuses x rest ∨ ∃ w mid, Gives x w mid ∧ P w mid := by
  cases x with
  | error e =>
    refine (refuses_error.trans refuses_error.symm).trans (or_iff_left ?_).symm
    rintro ⟨_, _, hx, _⟩
    exact not_yields_error hx
  | ok r =>
    refine (hf r).trans ⟨fun h => .inr ⟨_, _, yields_ok.2 ⟨rfl, rfl⟩, h⟩, ?_⟩
    rintro (h | ⟨_, _, hx, hp⟩)
    · exact absurd h not_refuses_ok
    · obtain ⟨rfl, rfl⟩ := yields_ok.1 hx
      exact hp

/-- Building something of what was read refuses nothing. -/
theorem refuses_bind_ok {x : Except Failure γ} {g : γ → δ} :
    Refuses (x >>= fun a => .ok (g a)) rest ↔ Refuses x rest := by
  cases x with
  | error e => exact refuses_error.trans refuses_error.symm
  | ok a => exact iff_of_false not_refuses_ok not_refuses_ok

/-! ## Sums and products -/

theorem refuses_expression :
    Refuses (expression ts) rest ↔
      Refuses (term ts) rest ∨
        ∃ first us, Gives (term ts) first us ∧ Refuses (sums first us) rest := by
  rw [expression]
  exact refuses_bind fun first => refuses_bind_ok

theorem refuses_sums_cons {left : Term} {tag : String} (ht : sumTag? t = some tag) :
    Refuses (sums left (t :: ts)) rest ↔
      Refuses (term ts) rest ∨
        ∃ right us, Gives (term ts) right us ∧
          Refuses (sums (.binary tag left right) us) rest := by
  rw [sums, ht]
  exact refuses_bind fun right => refuses_bind_ok

/-- A sum that ends refuses nothing. -/
theorem not_refuses_sums_of_none {left : Term} (h : ∀ t ∈ ts.head?, sumTag? t = none) :
    ¬ Refuses (sums left ts) rest := by
  cases ts with
  | nil =>
    rw [sums]
    exact not_refuses_ok
  | cons t ts =>
    rw [sums, h t rfl]
    exact not_refuses_ok

theorem refuses_term :
    Refuses (term ts) rest ↔
      Refuses (factor ts) rest ∨
        ∃ first us, Gives (factor ts) first us ∧ Refuses (products first us) rest := by
  rw [term]
  exact refuses_bind fun first => refuses_bind_ok

theorem refuses_products_cons {left : Term} {tag : String} (ht : productTag? t = some tag) :
    Refuses (products left (t :: ts)) rest ↔
      Refuses (factor ts) rest ∨
        ∃ right us, Gives (factor ts) right us ∧
          Refuses (products (.binary tag left right) us) rest := by
  rw [products, ht]
  exact refuses_bind fun right => refuses_bind_ok

/-- A product that ends refuses nothing. -/
theorem not_refuses_products_of_none {left : Term} (h : ∀ t ∈ ts.head?, productTag? t = none) :
    ¬ Refuses (products left ts) rest := by
  cases ts with
  | nil =>
    rw [products]
    exact not_refuses_ok
  | cons t ts =>
    rw [products, h t rfl]
    exact not_refuses_ok

/-! ## Brackets and arguments -/

/-- The bracket `closer` is not in front of the tokens. -/
def Misses (closer : String) (ts : List Token) : Prop :=
  ∀ t ∈ ts.head?, t.image ≠ closer

theorem misses_nil : Misses closer [] :=
  fun _ ht => nomatch ht

theorem refuses_close : Refuses (close closer ts) rest ↔ rest = ts ∧ Misses closer ts := by
  cases ts with
  | nil => exact refuses_refused.trans ⟨fun h => ⟨h, misses_nil⟩, fun h => h.1⟩
  | cons t ts =>
    by_cases ht : t.image = closer
    · simp only [close, ht, if_true]
      exact iff_of_false not_refuses_ok fun h => h.2 t rfl ht
    · simp only [close, ht, if_false]
      exact refuses_refused.trans ⟨fun h => ⟨h, forall_head_cons ht⟩, fun h => h.1⟩

theorem refuses_arguments :
    Refuses (arguments closer ts) rest ↔
      Refuses (expression ts) rest ∨
        ∃ first us, Gives (expression ts) first us ∧ Refuses (moreArguments closer us) rest := by
  rw [arguments]
  exact refuses_bind fun first => refuses_bind_ok

/-- After a comma arguments are refused as at the start. -/
theorem refuses_moreArguments_comma (ht : t.image = ",") :
    Refuses (moreArguments closer (t :: ts)) rest ↔ Refuses (arguments closer ts) rest := by
  rw [moreArguments, if_pos ht, refuses_arguments]
  exact refuses_bind fun first => refuses_bind_ok

theorem refuses_moreArguments_of_not_comma (h : ∀ t ∈ ts.head?, t.image ≠ ",") :
    Refuses (moreArguments closer ts) rest ↔ rest = ts ∧ Misses closer ts := by
  cases ts with
  | nil =>
    rw [moreArguments]
    exact refuses_refused.trans ⟨fun h => ⟨h, misses_nil⟩, fun h => h.1⟩
  | cons t ts =>
    rw [moreArguments, if_neg (h t rfl)]
    exact refuses_bind_ok.trans refuses_close

/-! ## Factors -/

theorem refuses_factor_nil : Refuses (factor []) rest ↔ rest = [] := by
  rw [factor.eq_def]
  exact refuses_refused

theorem refuses_factor_minus (ht : t.image = "-") :
    Refuses (factor (t :: ts)) rest ↔ Refuses (factor ts) rest := by
  simp only [factor.eq_def (t :: ts), ht, if_true]
  exact refuses_bind_ok

theorem refuses_factor_group (ht : t.image = "(") :
    Refuses (factor (t :: ts)) rest ↔
      Refuses (expression ts) rest ∨ ∃ v, Gives (expression ts) v rest ∧ Misses ")" rest := by
  have hm : "(" ≠ "-" := by decide
  simp only [factor.eq_def (t :: ts), ht, hm, if_true, if_false]
  refine (refuses_bind (P := fun _ us => rest = us ∧ Misses ")" us)
    fun inner => refuses_bind_ok.trans refuses_close).trans (or_congr_right ⟨?_, ?_⟩)
  · rintro ⟨v, _, h, rfl, hmiss⟩
    exact ⟨v, h, hmiss⟩
  · rintro ⟨v, h, hmiss⟩
    exact ⟨v, _, h, rfl, hmiss⟩

theorem refuses_factor_vector (ht : t.image = "[") :
    Refuses (factor (t :: ts)) rest ↔ Refuses (arguments "]" ts) rest := by
  have hm : "[" ≠ "-" := by decide
  have ho : "[" ≠ "(" := by decide
  simp only [factor.eq_def (t :: ts), ht, hm, ho, if_true, if_false]
  exact refuses_bind_ok

/-- A constant is a number or its failure is of another sort. -/
theorem not_refuses_factor_constant (ht : t.image ∉ openers) (hk : t.kind = .constant) :
    ¬ Refuses (factor (t :: ts)) rest := by
  simp only [openers, List.mem_cons, List.not_mem_nil, or_false, not_or] at ht
  simp only [factor.eq_def (t :: ts), ht, hk, if_true, if_false]
  rw [constant]
  cases number? t.image with
  | none =>
    rw [refuses_error]
    rintro ⟨_, h⟩
    cases h
  | some x => exact not_refuses_ok

/-- A symbol without a name is neither read nor refused. -/
theorem factor_nameless (hk : t.kind = .symbol) (hn : t.image = "") :
    factor (t :: ts) = .error .namelessSymbol := by
  simp [factor.eq_def (t :: ts), hk, hn]

theorem not_refuses_factor_symbol (ht : t.image ∉ openers) (hk : t.kind = .symbol)
    (hn : t.image ≠ "") (ho : ∀ o ∈ ts.head?, o.image ≠ "(") :
    ¬ Refuses (factor (t :: ts)) rest := by
  obtain ⟨a, ha, -⟩ := (gives_factor_symbol ht hk hn ho).2 ⟨rfl, rfl⟩
  rw [ha]
  exact not_refuses_ok

theorem refuses_factor_call {o : Token} (ht : t.image ∉ openers) (hk : t.kind = .symbol)
    (hn : t.image ≠ "") (ho : o.image = "(") :
    Refuses (factor (t :: o :: ts)) rest ↔ Refuses (arguments ")" ts) rest := by
  simp only [openers, List.mem_cons, List.not_mem_nil, or_false, not_or] at ht
  have hc : TokenKind.symbol ≠ .constant := by decide
  simp only [factor.eq_def (t :: o :: ts), ht, hk, hn, hc, ho, if_true, if_false]
  exact refuses_bind_ok

/-- What begins no factor is refused at once. -/
theorem refuses_factor_other (ht : t.image ∉ openers) (hc : t.kind ≠ .constant)
    (hs : t.kind ≠ .symbol) : Refuses (factor (t :: ts)) rest ↔ rest = t :: ts := by
  simp only [openers, List.mem_cons, List.not_mem_nil, or_false, not_or] at ht
  simp only [factor.eq_def (t :: ts), ht, hc, hs, if_false]
  exact refuses_refused

/-! ## Statements -/

theorem refuses_symbol : Refuses (symbol (t :: ts)) rest ↔ rest = t :: ts ∧ t.kind ≠ .symbol := by
  by_cases hk : t.kind = .symbol
  · simp only [symbol, hk, ne_eq, not_true, if_false, and_false, iff_false]
    by_cases hn : t.image = ""
    · rw [if_pos hn, refuses_error]
      rintro ⟨_, h⟩
      cases h
    · rw [if_neg hn]
      exact not_refuses_ok
  · simp only [symbol, hk, ne_eq, not_false_eq_true, if_true, and_true]
    exact refuses_refused

/-- An assignment is refused at what is assigned to if that is no symbol, or in its definition. -/
theorem refuses_statement_of_assignment {s : Token} (hs : s.image = "=") :
    Refuses (statement (t :: s :: ts)) rest ↔
      rest = t :: s :: ts ∧ t.kind ≠ .symbol ∨
        t.kind = .symbol ∧ t.image ≠ "" ∧ Refuses (expression ts) rest := by
  have ha : isAssignment (t :: s :: ts) = true := beq_iff_eq.2 hs
  rw [statement, if_pos ha]
  refine (refuses_bind (P := fun _ us => Refuses (close "=" us) rest ∨
    ∃ (u : Unit) (us' : List Token), Gives (close "=" us) u us' ∧ Refuses (expression us') rest)
    fun name => refuses_bind fun sign => refuses_bind_ok).trans (or_congr refuses_symbol ⟨?_, ?_⟩)
  · rintro ⟨_, _, hname, hrest⟩
    obtain ⟨_, ⟨⟩, hk, hn, -⟩ := gives_symbol.1 hname
    obtain hsign | ⟨_, _, hsign, hdefinition⟩ := hrest
    · exact absurd hs ((refuses_close.1 hsign).2 s rfl)
    · obtain ⟨_, -, ⟨⟩⟩ := gives_close.1 hsign
      exact ⟨hk, hn, hdefinition⟩
  · rintro ⟨hk, hn, hdefinition⟩
    exact ⟨_, _, gives_symbol.2 ⟨t, rfl, hk, hn, rfl⟩,
      .inr ⟨(), ts, gives_close.2 ⟨s, hs, rfl⟩, hdefinition⟩⟩

/-- A list of tokens is refused as a whole where its statement is, or where that ends. -/
theorem refuses_whole :
    Refuses (whole ts) rest ↔
      Refuses (statement ts) rest ∨ (∃ v, Gives (statement ts) v rest) ∧ rest ≠ [] := by
  rw [whole]
  refine (refuses_bind (P := fun _ us => rest = us ∧ us ≠ []) fun read => ?_).trans
    (or_congr_right ⟨?_, ?_⟩)
  · by_cases hnil : read.rest = []
    · rw [if_pos (List.isEmpty_iff.2 hnil)]
      exact iff_of_false not_refuses_ok fun h => h.2 hnil
    · rw [if_neg (mt List.isEmpty_iff.1 hnil)]
      exact refuses_refused.trans ⟨fun h => ⟨h, hnil⟩, fun h => h.1⟩
  · rintro ⟨v, _, h, rfl, hne⟩
    exact ⟨⟨v, h⟩, hne⟩
  · rintro ⟨⟨v, h⟩, hne⟩
    exact ⟨v, _, h, rfl, hne⟩

end TermCalc.Parser
