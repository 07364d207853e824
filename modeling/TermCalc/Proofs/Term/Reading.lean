import TermCalc.Term.Parser

/-!
# What the reading functions give

Each reading function succeeds with a value and the tokens left over. One lemma for each function,
and for each way in which it can begin, says when it gives a certain value and rest, in terms of
what the functions it calls give. The functions need not be opened after that.

Reading and reading on differ in the bound on the tokens left, which the program needs to end. Here
both are seen through a view that forgets the bound, so that one lemma serves for both.

## Main definitions

* `Parser.Yields view r v rest`: the reading `r` succeeds, with the value `v` and the rest `rest` as
  `view` shows them
* `Parser.Gives r v rest`, `Parser.GivesOn r v rest`: the same for reading and for reading on

## Main results

* `Parser.yields_bind`: one reading after another
* `Parser.gives_expression`, `Parser.givesOn_sums_cons`: sums of products
* `Parser.gives_term`, `Parser.givesOn_products_cons`: products of factors
* `Parser.gives_factor_minus`, …, `Parser.gives_factor_call`: factors by their first tokens
* `Parser.gives_arguments`, `Parser.gives_moreArguments_comma`: arguments
-/

namespace TermCalc.Parser

variable {α β : Type} {ts us rest : List Token} {t : Token} {v : Term} {closer : String}

/-! ## Successful readings -/

/-- The value that a reading gives and the tokens that it leaves. -/
def Read.view (a : Read α ts) : α × List Token :=
  (a.value, a.rest)

@[inherit_doc Read.view]
def ReadOn.view (a : ReadOn α ts) : α × List Token :=
  (a.value, a.rest)

section Yields

variable {ρ σ : Type} {view : ρ → α × List Token}

/-- The reading succeeds, with the value `v` and the tokens `rest` left as `view` shows them. -/
def Yields (view : ρ → α × List Token) (r : Except Failure ρ) (v : α) (rest : List Token) : Prop :=
  ∃ a, r = .ok a ∧ (view a).1 = v ∧ (view a).2 = rest

theorem yields_ok {a : ρ} {v : α} :
    Yields view (.ok a) v rest ↔ v = (view a).1 ∧ rest = (view a).2 := by
  constructor
  · rintro ⟨_, ha, rfl, rfl⟩
    cases ha
    exact ⟨rfl, rfl⟩
  · rintro ⟨rfl, rfl⟩
    exact ⟨a, rfl, rfl, rfl⟩

theorem not_yields_error {f : Failure} {v : α} : ¬ Yields view (.error f) v rest :=
  fun ⟨_, h, _⟩ => nomatch h

/-- One reading after another. -/
theorem yields_bind (part : σ → β × List Token) {x : Except Failure σ}
    {f : σ → Except Failure ρ} {P : β → List Token → Prop} {v : α}
    (hf : ∀ b, Yields view (f b) v rest ↔ P (part b).1 (part b).2) :
    Yields view (x >>= f) v rest ↔ ∃ w mid, Yields part x w mid ∧ P w mid := by
  cases x with
  | error e =>
    refine iff_of_false not_yields_error ?_
    rintro ⟨_, _, hx, _⟩
    exact not_yields_error hx
  | ok b =>
    refine (hf b).trans ⟨fun h => ⟨_, _, yields_ok.2 ⟨rfl, rfl⟩, h⟩, ?_⟩
    rintro ⟨_, _, hx, hp⟩
    obtain ⟨rfl, rfl⟩ := yields_ok.1 hx
    exact hp

/-- Building something of what was read last changes the value and not the rest. -/
theorem yields_bind_map (part : σ → β × List Token) {x : Except Failure σ} {f : σ → ρ} {g : β → α}
    {v : α} (hf : ∀ b, view (f b) = (g (part b).1, (part b).2)) :
    Yields view (x >>= fun b => .ok (f b)) v rest ↔ ∃ w, v = g w ∧ Yields part x w rest := by
  refine (yields_bind part (P := fun w mid => v = g w ∧ rest = mid) fun b => ?_).trans ⟨?_, ?_⟩
  · rw [yields_ok, hf]
  · rintro ⟨w, mid, hx, hv, rfl⟩
    exact ⟨w, hv, hx⟩
  · rintro ⟨w, hv, hx⟩
    exact ⟨w, rest, hx, hv, rfl⟩

/-- What reading on gives last is what the whole gives. -/
theorem yields_bind_same (part : σ → α × List Token) {x : Except Failure σ} {f : σ → ρ} {v : α}
    (hf : ∀ b, view (f b) = part b) :
    Yields view (x >>= fun b => .ok (f b)) v rest ↔ Yields part x v rest :=
  (yields_bind_map part (g := id) hf).trans exists_eq_left'

end Yields

/-- The reading succeeds with the value `v` and leaves `rest`. -/
abbrev Gives (r : Except Failure (Read α ts)) (v : α) (rest : List Token) : Prop :=
  Yields Read.view r v rest

/-- Reading on succeeds with the value `v` and leaves `rest`. -/
abbrev GivesOn (r : Except Failure (ReadOn α ts)) (v : α) (rest : List Token) : Prop :=
  Yields ReadOn.view r v rest

theorem Gives.shorter {r : Except Failure (Read α ts)} {v : α} (h : Gives r v rest) :
    rest.length < ts.length := by
  obtain ⟨a, -, -, rfl⟩ := h
  exact a.shorter

/-! ## Sums and products -/

theorem gives_expression :
    Gives (expression ts) v rest ↔
      ∃ first us, Gives (term ts) first us ∧ GivesOn (sums first us) v rest := by
  rw [expression]
  exact yields_bind Read.view fun first => yields_bind_same ReadOn.view fun _ => rfl

theorem givesOn_sums_cons {left : Term} {tag : String} (ht : sumTag? t = some tag) :
    GivesOn (sums left (t :: ts)) v rest ↔
      ∃ right us, Gives (term ts) right us ∧
        GivesOn (sums (.binary tag left right) us) v rest := by
  rw [sums, ht]
  exact yields_bind Read.view fun right => yields_bind_same ReadOn.view fun _ => rfl

/-- A sum ends where no operator between terms follows. -/
theorem givesOn_sums_of_none {left : Term} (h : ∀ t ∈ ts.head?, sumTag? t = none) :
    GivesOn (sums left ts) v rest ↔ v = left ∧ rest = ts := by
  cases ts with
  | nil =>
    rw [sums]
    exact yields_ok
  | cons t ts =>
    rw [sums, h t rfl]
    exact yields_ok

theorem gives_term :
    Gives (term ts) v rest ↔
      ∃ first us, Gives (factor ts) first us ∧ GivesOn (products first us) v rest := by
  rw [term]
  exact yields_bind Read.view fun first => yields_bind_same ReadOn.view fun _ => rfl

theorem givesOn_products_cons {left : Term} {tag : String} (ht : productTag? t = some tag) :
    GivesOn (products left (t :: ts)) v rest ↔
      ∃ right us, Gives (factor ts) right us ∧
        GivesOn (products (.binary tag left right) us) v rest := by
  rw [products, ht]
  exact yields_bind Read.view fun right => yields_bind_same ReadOn.view fun _ => rfl

/-- A product ends where no operator between factors follows. -/
theorem givesOn_products_of_none {left : Term} (h : ∀ t ∈ ts.head?, productTag? t = none) :
    GivesOn (products left ts) v rest ↔ v = left ∧ rest = ts := by
  cases ts with
  | nil =>
    rw [products]
    exact yields_ok
  | cons t ts =>
    rw [products, h t rfl]
    exact yields_ok

/-! ## Brackets and arguments -/

theorem gives_close {u : Unit} :
    Gives (close closer ts) u rest ↔ ∃ c, c.image = closer ∧ ts = c :: rest := by
  cases ts with
  | nil =>
    refine iff_of_false not_yields_error ?_
    rintro ⟨_, _, h⟩
    cases h
  | cons t ts =>
    by_cases ht : t.image = closer
    · simp only [close, ht, if_true, yields_ok, true_and]
      constructor
      · rintro rfl
        exact ⟨t, ht, rfl⟩
      · rintro ⟨_, _, h⟩
        cases h
        rfl
    · simp only [close, ht, if_false]
      refine iff_of_false not_yields_error ?_
      rintro ⟨_, hc, h⟩
      cases h
      exact ht hc

/-- A closing bracket that is read last leaves the value as it is. -/
theorem gives_close_bind {v w : α} {h : ∀ a : Read Unit us, a.rest.length < ts.length} :
    Gives (close closer us >>= fun a => .ok ⟨w, a.rest, h a⟩ : Except Failure (Read α ts)) v rest ↔
      v = w ∧ ∃ c, c.image = closer ∧ us = c :: rest := by
  refine Iff.trans (yields_bind_map Read.view (g := fun _ => w) fun _ => rfl) ⟨?_, ?_⟩
  · rintro ⟨_, hv, hc⟩
    exact ⟨hv, gives_close.1 hc⟩
  · rintro ⟨hv, hc⟩
    exact ⟨(), hv, gives_close.2 hc⟩

theorem gives_arguments {vs : List Term} :
    Gives (arguments closer ts) vs rest ↔
      ∃ first us, Gives (expression ts) first us ∧
        ∃ others, vs = first :: others ∧ Gives (moreArguments closer us) others rest := by
  rw [arguments]
  exact yields_bind Read.view fun first => yields_bind_map Read.view fun _ => rfl

/-- After a comma arguments follow as at the start. -/
theorem gives_moreArguments_comma {vs : List Term} (ht : t.image = ",") :
    Gives (moreArguments closer (t :: ts)) vs rest ↔ Gives (arguments closer ts) vs rest := by
  rw [moreArguments, if_pos ht, gives_arguments]
  exact yields_bind Read.view fun first => yields_bind_map Read.view fun _ => rfl

theorem gives_moreArguments_of_not_comma {vs : List Term} (h : ∀ t ∈ ts.head?, t.image ≠ ",") :
    Gives (moreArguments closer ts) vs rest ↔ vs = [] ∧ ∃ c, c.image = closer ∧ ts = c :: rest := by
  cases ts with
  | nil =>
    rw [moreArguments]
    refine iff_of_false not_yields_error ?_
    rintro ⟨_, _, _, h⟩
    cases h
  | cons t ts =>
    rw [moreArguments, if_neg (h t rfl)]
    exact gives_close_bind

/-! ## Factors -/

theorem not_gives_factor_nil : ¬ Gives (factor []) v rest := by
  rw [factor.eq_def]
  exact not_yields_error

theorem gives_factor_minus (ht : t.image = "-") :
    Gives (factor (t :: ts)) v rest ↔ ∃ w, v = .unary "$neg" w ∧ Gives (factor ts) w rest := by
  simp only [factor.eq_def (t :: ts), ht, if_true]
  exact yields_bind_map Read.view fun _ => rfl

theorem gives_factor_group (ht : t.image = "(") :
    Gives (factor (t :: ts)) v rest ↔ ∃ c, c.image = ")" ∧ Gives (expression ts) v (c :: rest) := by
  have hm : "(" ≠ "-" := by decide
  simp only [factor.eq_def (t :: ts), ht, hm, if_true, if_false]
  refine (yields_bind Read.view (P := fun w us => v = w ∧ ∃ c, c.image = ")" ∧ us = c :: rest)
    fun inner => gives_close_bind).trans ⟨?_, ?_⟩
  · rintro ⟨_, _, h, rfl, c, hc, rfl⟩
    exact ⟨c, hc, h⟩
  · rintro ⟨c, hc, h⟩
    exact ⟨_, _, h, rfl, c, hc, rfl⟩

theorem gives_factor_vector (ht : t.image = "[") :
    Gives (factor (t :: ts)) v rest ↔
      ∃ vs, v = .app (.sym "$vec") vs ∧ Gives (arguments "]" ts) vs rest := by
  have hm : "[" ≠ "-" := by decide
  have ho : "[" ≠ "(" := by decide
  simp only [factor.eq_def (t :: ts), ht, hm, ho, if_true, if_false]
  exact yields_bind_map Read.view fun _ => rfl

/-- The images that begin a factor by themselves, whatever the kind of the token. -/
def openers : List String :=
  ["-", "(", "["]

theorem gives_factor_constant (ht : t.image ∉ openers) (hk : t.kind = .constant) :
    Gives (factor (t :: ts)) v rest ↔ ∃ x, number? t.image = some x ∧ v = .const x ∧ rest = ts := by
  simp only [openers, List.mem_cons, List.not_mem_nil, or_false, not_or] at ht
  simp only [factor.eq_def (t :: ts), ht, hk, if_true, if_false]
  rw [constant]
  cases number? t.image with
  | none =>
    refine iff_of_false not_yields_error ?_
    rintro ⟨_, h, _⟩
    cases h
  | some x =>
    refine yields_ok.trans ⟨fun h => ⟨x, rfl, h⟩, ?_⟩
    rintro ⟨_, h, hv⟩
    cases h
    exact hv

theorem gives_factor_symbol (ht : t.image ∉ openers) (hk : t.kind = .symbol) (hn : t.image ≠ "")
    (ho : ∀ o ∈ ts.head?, o.image ≠ "(") :
    Gives (factor (t :: ts)) v rest ↔ v = .sym t.image ∧ rest = ts := by
  simp only [openers, List.mem_cons, List.not_mem_nil, or_false, not_or] at ht
  have hc : TokenKind.symbol ≠ .constant := by decide
  cases ts with
  | nil =>
    simp only [factor.eq_def [t], ht, hk, hn, hc, if_true, if_false]
    exact yields_ok
  | cons o ts =>
    simp only [factor.eq_def (t :: o :: ts), ht, hk, hn, hc, ho o rfl, if_true, if_false]
    exact yields_ok

theorem gives_factor_call {o : Token} (ht : t.image ∉ openers) (hk : t.kind = .symbol)
    (hn : t.image ≠ "") (ho : o.image = "(") :
    Gives (factor (t :: o :: ts)) v rest ↔
      ∃ vs, v = .app (.sym t.image) vs ∧ Gives (arguments ")" ts) vs rest := by
  simp only [openers, List.mem_cons, List.not_mem_nil, or_false, not_or] at ht
  have hc : TokenKind.symbol ≠ .constant := by decide
  simp only [factor.eq_def (t :: o :: ts), ht, hk, hn, hc, ho, if_true, if_false]
  exact yields_bind_map Read.view fun _ => rfl

/-- Every other operator begins no factor. -/
theorem not_gives_factor (ht : t.image ∉ openers) (hc : t.kind ≠ .constant)
    (hs : t.kind ≠ .symbol) : ¬ Gives (factor (t :: ts)) v rest := by
  simp only [openers, List.mem_cons, List.not_mem_nil, or_false, not_or] at ht
  simp only [factor.eq_def (t :: ts), ht, hc, hs, if_false]
  exact not_yields_error

/-! ## Statements -/

theorem gives_symbol :
    Gives (symbol ts) v rest ↔
      ∃ t, ts = t :: rest ∧ t.kind = .symbol ∧ t.image ≠ "" ∧ v = .sym t.image := by
  cases ts with
  | nil =>
    refine iff_of_false not_yields_error ?_
    rintro ⟨_, h, _⟩
    cases h
  | cons t ts =>
    by_cases hk : t.kind = .symbol
    · by_cases hn : t.image = ""
      · simp only [symbol, hk, hn, ne_eq, not_true, if_true, if_false]
        refine iff_of_false not_yields_error ?_
        rintro ⟨_, h, _, hne, _⟩
        cases h
        exact hne hn
      · simp only [symbol, hk, hn, ne_eq, not_true, if_false]
        refine yields_ok.trans ⟨?_, ?_⟩
        · rintro ⟨rfl, rfl⟩
          exact ⟨t, rfl, hk, hn, rfl⟩
        · rintro ⟨_, h, _, _, rfl⟩
          cases h
          exact ⟨rfl, rfl⟩
    · simp only [symbol, hk, ne_eq, not_false_eq_true, if_true]
      refine iff_of_false not_yields_error ?_
      rintro ⟨_, h, hs, _⟩
      cases h
      exact hk hs

theorem gives_statement_of_assignment (h : isAssignment ts = true) :
    Gives (statement ts) v rest ↔
      ∃ t s us w, ts = t :: s :: us ∧ t.kind = .symbol ∧ t.image ≠ "" ∧ s.image = "=" ∧
        v = .binary "$let" (.sym t.image) w ∧ Gives (expression us) w rest := by
  rw [statement, if_pos h]
  refine (yields_bind Read.view (P := fun name us => ∃ (_ : Unit) (us' : List Token),
    Gives (close "=" us) () us' ∧ ∃ w, v = .binary "$let" name w ∧ Gives (expression us') w rest)
    fun name => ?_).trans ⟨?_, ?_⟩
  · exact yields_bind Read.view fun sign => yields_bind_map Read.view fun _ => rfl
  · rintro ⟨_, _, hname, -, us, hsign, w, hv, hw⟩
    obtain ⟨t, rfl, hk, hn, rfl⟩ := gives_symbol.1 hname
    obtain ⟨s, hs, rfl⟩ := gives_close.1 hsign
    exact ⟨t, s, us, w, rfl, hk, hn, hs, hv, hw⟩
  · rintro ⟨t, s, us, w, rfl, hk, hn, hs, hv, hw⟩
    have hname : Gives (symbol (t :: s :: us)) (.sym t.image) (s :: us) :=
      gives_symbol.2 ⟨t, rfl, hk, hn, rfl⟩
    exact ⟨_, _, hname, (), us, gives_close.2 ⟨s, hs, rfl⟩, w, hv, hw⟩

theorem statement_of_not_assignment (h : isAssignment ts = false) :
    statement ts = expression ts := by
  rw [statement, if_neg (by rw [h]; decide)]

/-- A list of tokens is read as a whole when a statement is read that leaves nothing. -/
theorem whole_eq_ok_iff : whole ts = .ok v ↔ Gives (statement ts) v [] := by
  rw [whole]
  cases statement ts with
  | error e => exact iff_of_false (fun h => nomatch h) not_yields_error
  | ok a =>
    change (if a.rest.isEmpty then Except.ok a.value else _) = _ ↔ _
    by_cases ha : a.rest = []
    · rw [if_pos (List.isEmpty_iff.2 ha), Except.ok.injEq]
      exact ⟨fun h => yields_ok.2 ⟨h.symm, ha.symm⟩, fun h => (yields_ok.1 h).1.symm⟩
    · rw [if_neg (mt List.isEmpty_iff.1 ha)]
      exact iff_of_false (fun h => nomatch h) fun h => ha (yields_ok.1 h).2.symm

end TermCalc.Parser

namespace TermCalc.Term

/-- Significant tokens are read as a term when a statement is read that leaves nothing. -/
theorem ofSignificant?_eq_ok_iff {ts : List Token} {v : Term} :
    ofSignificant? ts = .ok v ↔ Parser.Gives (Parser.statement ts) v [] := by
  rw [← Parser.whole_eq_ok_iff, ofSignificant?]
  split
  case h_1 t ht => rw [ht, Except.ok.injEq, Except.ok.injEq]
  all_goals
    rename_i h
    exact iff_of_false (fun e => nomatch e) fun e => nomatch h.symm.trans e

end TermCalc.Term
