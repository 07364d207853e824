import TermCalc.Proofs.Term.Equivalence
import TermCalc.Proofs.Term.Grammar
import TermCalc.Proofs.Term.Readable
import TermCalc.Proofs.Token.Scan

/-!
# What the tokens of a text stand for

The tokens of the text of a term stand for an equivalent term, unless a minus sign is lost in it: in
front of a number it becomes part of the number, and in front of another minus sign it begins a
comment. What is read instead is smaller, so it is never equivalent. An assignment leaves its sign
among the tokens, which no operand contains.

## Main definitions

* `Term.Merges operand`: a minus sign in front of the text of `operand` is lost
* `Term.Assigns v`, `Term.Ambiguous v`: an assignment, or a minus sign that is lost, occurs in `v`
* `Term.Reads v w`: `w` is what is read instead of `v`
* `Term.Printed v ts`: what the tokens `ts` of the text of `v` are read as

## Main results

* `Term.reads_app`: what is read instead of an application
* `Term.printed_const`, `Term.printed_sym`, `Term.printed_negation`, `Term.printed_assignment`,
  `Term.printed_operator`, `Term.printed_call`: the tokens of each kind of text
-/

namespace TermCalc.Term

open Grammar (Factor Arguments sumTags productTags)
open Lexer (IsToken)

/-! ## What is not read back -/

/-- A minus sign in front of the text of the term is lost: it becomes part of a number, or it begins
a comment together with another minus sign. -/
inductive Merges : Term → Prop
  | number {x : Float} : x.isNaN = false → Merges (.const x)
  | negation (operand : Term) : Merges (unary "$neg" operand)

/-- A minus sign that is lost occurs in the text of the term. -/
def Ambiguous (v : Term) : Prop :=
  ∃ operand, Part (unary "$neg" operand) v ∧ Merges operand

/-- An assignment occurs in the term. -/
def Assigns (v : Term) : Prop :=
  ∃ left right, Part (binary "$let" left right) v

/-- Something occurs in the term that is not read back in every place. -/
def Lossy (v : Term) : Prop :=
  Assigns v ∨ Ambiguous v

variable {name : String} {args : List Term} {v : Term} {x : Float}

theorem not_ambiguous_const : ¬ Ambiguous (.const x) := by
  rintro ⟨_, h, -⟩
  exact nomatch part_const.1 h

theorem not_ambiguous_sym : ¬ Ambiguous (.sym name) := by
  rintro ⟨_, h, -⟩
  exact nomatch part_sym.1 h

theorem not_assigns_const : ¬ Assigns (.const x) := by
  rintro ⟨_, _, h⟩
  exact nomatch part_const.1 h

theorem not_assigns_sym : ¬ Assigns (.sym name) := by
  rintro ⟨_, _, h⟩
  exact nomatch part_sym.1 h

theorem ambiguous_app : Ambiguous (.app (.sym name) args) ↔
    (name = "$neg" ∧ ∃ a, args = [a] ∧ Merges a) ∨ ∃ a ∈ args, Ambiguous a := by
  constructor
  · rintro ⟨operand, h, hm⟩
    rcases part_app.1 h with h | h | ⟨a, ha, h⟩
    · cases h
      exact .inl ⟨rfl, operand, rfl, hm⟩
    · cases h
    · exact .inr ⟨a, ha, operand, h, hm⟩
  · rintro (⟨rfl, a, rfl, hm⟩ | ⟨a, ha, operand, h, hm⟩)
    · exact ⟨a, .self, hm⟩
    · exact ⟨operand, .arg ha h, hm⟩

theorem assigns_app : Assigns (.app (.sym name) args) ↔
    (name = "$let" ∧ ∃ l r, args = [l, r]) ∨ ∃ a ∈ args, Assigns a := by
  constructor
  · rintro ⟨l, r, h⟩
    rcases part_app.1 h with h | h | ⟨a, ha, h⟩
    · cases h
      exact .inl ⟨rfl, l, r, rfl⟩
    · cases h
    · exact .inr ⟨a, ha, l, r, h⟩
  · rintro (⟨rfl, l, r, rfl⟩ | ⟨a, ha, l, r, h⟩)
    · exact ⟨l, r, .self⟩
    · exact ⟨l, r, .arg ha h⟩

theorem assigns_neg : Assigns (unary "$neg" v) ↔ Assigns v := by
  rw [unary, assigns_app]
  simp

theorem ambiguous_neg : Ambiguous (unary "$neg" v) ↔ Merges v ∨ Ambiguous v := by
  rw [unary, ambiguous_app]
  simp

theorem lossy_neg (h : Merges v) : Lossy (unary "$neg" v) :=
  .inr (ambiguous_neg.2 (.inl h))

theorem lossy_of_mem {a : Term} (ha : a ∈ args) (h : Lossy a) :
    Lossy (.app (.sym name) args) :=
  h.imp (fun h => assigns_app.2 (.inr ⟨a, ha, h⟩)) fun h => ambiguous_app.2 (.inr ⟨a, ha, h⟩)

/-! ## What is read instead -/

/-- Reading back gives `w` for `v`: an equivalent term, or a smaller one if a minus sign is lost. -/
def Reads (v w : Term) : Prop :=
  ¬ Ambiguous v ∧ w.equivalent v = true ∨ Ambiguous v ∧ w.size < v.size

theorem Reads.size_le {w : Term} (h : Reads v w) : w.size ≤ v.size := by
  rcases h with ⟨-, h⟩ | ⟨-, h⟩
  · exact (size_eq_of_equivalent h).le
  · exact h.le

/-- What is read back as an equivalent term has lost no minus sign. -/
theorem Reads.not_ambiguous {w : Term} (h : Reads v w) (he : w.equivalent v = true) :
    ¬ Ambiguous v := by
  rcases h with ⟨hnot, -⟩ | ⟨-, hlt⟩
  · exact hnot
  · exact absurd (size_eq_of_equivalent he) (Nat.ne_of_lt hlt)

theorem sizeAll_le_of_reads {ws : List Term} (h : List.Forall₂ Reads args ws) :
    sizeAll ws ≤ sizeAll args := by
  induction h with
  | nil => exact Nat.le_refl _
  | cons h _ ih =>
    have hle := h.size_le
    rw [sizeAll, sizeAll]
    omega

theorem sizeAll_lt_of_reads {ws : List Term} (h : List.Forall₂ Reads args ws)
    (ha : ∃ a ∈ args, Ambiguous a) : sizeAll ws < sizeAll args := by
  induction h with
  | nil =>
    obtain ⟨_, ha, _⟩ := ha
    cases ha
  | cons h hs ih =>
    have hle := h.size_le
    have hall := sizeAll_le_of_reads hs
    rw [sizeAll, sizeAll]
    obtain ⟨b, hb, hamb⟩ := ha
    rcases List.mem_cons.1 hb with rfl | hb
    · rcases h with ⟨hnot, -⟩ | ⟨-, hlt⟩
      · exact absurd hamb hnot
      · omega
    · have hlt := ih ⟨b, hb, hamb⟩
      omega

/-- An application is read back if its arguments are. -/
theorem reads_app {ws : List Term} (h : List.Forall₂ Reads args ws)
    (hm : name = "$neg" → ∀ a, args = [a] → ¬ Merges a) :
    Reads (.app (.sym name) args) (.app (.sym name) ws) := by
  by_cases ha : ∃ a ∈ args, Ambiguous a
  · have hlt := sizeAll_lt_of_reads h ha
    refine .inr ⟨ambiguous_app.2 (.inr ha), ?_⟩
    simp only [size]
    omega
  · refine .inl ⟨?_, equivalent_app_iff.2 ⟨equivalent_refl _, ?_⟩⟩
    · rw [ambiguous_app]
      rintro (⟨hname, a, hargs, hmerges⟩ | h)
      · exact hm hname a hargs hmerges
      · exact ha h
    · refine (forall₂_of_forall_mem h fun a hmem w hw => ?_).flip
      rcases hw with ⟨-, hw⟩ | ⟨hamb, -⟩
      · exact hw
      · exact absurd ⟨a, hmem, hamb⟩ ha

/-! ## The tokens of a text -/

/-- What the significant tokens of the text of `v` are: the sign of an assignment is among them if
one occurs in `v`, and otherwise they are a factor, which stands for what is read instead of `v`. -/
structure Printed (v : Term) (ts : List Token) : Prop where
  sign : (∃ t ∈ ts, t.Is "=") ↔ Assigns v
  factor : ¬ Assigns v → ∃ w, Factor ts w ∧ Reads v w

/-- The same of the texts of a list of terms, with commas between them. -/
structure PrintedAll (vs : List Term) (ts : List Token) : Prop where
  sign : (∃ t ∈ ts, t.Is "=") ↔ ∃ v ∈ vs, Assigns v
  arguments : (¬ ∃ v ∈ vs, Assigns v) → ∃ ws, Arguments ts ws ∧ List.Forall₂ Reads vs ws

variable {ts us : List Token} {cs : List Char} {t o c : Token}

theorem not_sign_of_isToken {kind : TokenKind} (h : IsToken kind cs ts) (hk : kind ≠ .operator) :
    ¬ ∃ t ∈ ts, t.Is "=" := by
  obtain ⟨t, rfl, rfl, -⟩ := h
  rintro ⟨u, hu, hsign⟩
  obtain rfl := List.mem_singleton.1 hu
  exact hk hsign.1

theorem printed_const {y : Float} (h : IsToken .constant cs ts)
    (hy : number? (String.ofList cs) = some y) (hsame : sameNumber y x = true) :
    Printed (.const x) ts where
  sign := iff_of_false (not_sign_of_isToken h (by decide)) not_assigns_const
  factor _ := by
    obtain ⟨t, rfl, hk, himage⟩ := h
    refine ⟨.const y, .constant hk (himage ▸ hy), .inl ⟨not_ambiguous_const, ?_⟩⟩
    rw [equivalent, hsame]

/-- A number that has taken up the minus sign in front of it. -/
theorem printed_merged {y : Float} (h : IsToken .constant cs ts)
    (hy : number? (String.ofList cs) = some y) (hx : x.isNaN = false) :
    Printed (unary "$neg" (.const x)) ts where
  sign := iff_of_false (not_sign_of_isToken h (by decide)) (mt assigns_neg.1 not_assigns_const)
  factor _ := by
    obtain ⟨t, rfl, hk, himage⟩ := h
    refine ⟨.const y, .constant hk (himage ▸ hy), .inr ⟨ambiguous_neg.2 (.inl (.number hx)), ?_⟩⟩
    simp [unary, size, sizeAll]

theorem printed_sym (h : IsToken .symbol name.toList ts) : Printed (.sym name) ts where
  sign := iff_of_false (not_sign_of_isToken h (by decide)) not_assigns_sym
  factor _ := by
    obtain ⟨t, rfl, hk, himage⟩ := h
    rw [String.ofList_toList] at himage
    refine ⟨.sym t.image, .symbol hk, .inl ⟨not_ambiguous_sym, ?_⟩⟩
    rw [himage, equivalent_refl]

theorem exists_sign_cons : (∃ u ∈ t :: ts, u.Is "=") ↔ t.Is "=" ∨ ∃ u ∈ ts, u.Is "=" := by
  simp

theorem exists_sign_append :
    (∃ u ∈ ts ++ us, u.Is "=") ↔ (∃ u ∈ ts, u.Is "=") ∨ ∃ u ∈ us, u.Is "=" := by
  simp only [List.mem_append, or_and_right, exists_or]

theorem not_sign {mark : String} (h : t.Is mark) (hm : mark ≠ "=") : (t.Is "=") = False :=
  eq_false (Grammar.not_sign_of_is h hm)

/-- A minus sign in front of an operand that does not take it up. -/
theorem printed_negation (ht : t.Is "-") (h : Printed v ts) (hm : ¬ Merges v) :
    Printed (unary "$neg" v) (t :: ts) where
  sign := by rw [exists_sign_cons, not_sign ht (by decide), false_or, h.sign, assigns_neg]
  factor ha := by
    obtain ⟨w, hw, hreads⟩ := h.factor (mt assigns_neg.2 ha)
    refine ⟨_, .negation ht hw, reads_app (.cons hreads .nil) ?_⟩
    rintro - a ⟨⟩
    exact hm

/-- The sign of an assignment makes any statement about what is read void. -/
theorem printed_assignment (ht : t.Is "=") (ha : Assigns v) :
    Printed v (ts ++ t :: us) where
  sign := iff_of_true ⟨t, by simp, ht⟩ ha
  factor h := absurd ha h

/-- Two operands and an operator between them are a group. -/
theorem factor_operator {mark tag : String} {l r : Term} (ho : o.Is "(") (hl : Factor ts l)
    (ht : t.Is mark) (hmem : (mark, tag) ∈ sumTags ++ productTags) (hr : Factor us r)
    (hc : c.Is ")") : Factor (o :: (ts ++ t :: us) ++ [c]) (binary tag l r) := by
  refine .group ho ?_ hc
  rcases List.mem_append.1 hmem with hmem | hmem
  · exact .sum (.product (.factor hl)) ht hmem (.factor hr)
  · exact .product (.product (.factor hl) ht hmem hr)

theorem printed_operator {mark tag : String} {l r : Term} (ho : o.Is "(") (hl : Printed l ts)
    (ht : t.Is mark) (hmem : (mark, tag) ∈ sumTags ++ productTags) (hr : Printed r us)
    (hc : c.Is ")") : Printed (binary tag l r) (o :: (ts ++ t :: us) ++ [c]) := by
  have hall : ∀ p ∈ sumTags ++ productTags, p.1 ≠ "=" ∧ p.2 ≠ "$let" ∧ p.2 ≠ "$neg" := by decide
  obtain ⟨hmark, hlet, hneg⟩ := hall _ hmem
  have hassigns : Assigns (binary tag l r) ↔ Assigns l ∨ Assigns r := by
    rw [binary, assigns_app]
    simp [hlet]
  constructor
  · rw [hassigns, ← hl.sign, ← hr.sign, exists_sign_append, exists_sign_cons, exists_sign_append,
      exists_sign_cons, exists_sign_cons, not_sign ho (by decide), not_sign ht hmark,
      not_sign hc (by decide)]
    simp
  · intro ha
    rw [hassigns, not_or] at ha
    obtain ⟨wl, hwl, hreadl⟩ := hl.factor ha.1
    obtain ⟨wr, hwr, hreadr⟩ := hr.factor ha.2
    refine ⟨_, factor_operator ho hwl ht hmem hwr hc, ?_⟩
    exact reads_app (.cons hreadl (.cons hreadr .nil)) fun h => absurd h hneg

theorem Printed.all (h : Printed v ts) : PrintedAll [v] ts where
  sign := by simpa using h.sign
  arguments ha := by
    obtain ⟨w, hw, hreads⟩ := h.factor (by simpa using ha)
    exact ⟨[w], .one (.product (.factor hw)), .cons hreads .nil⟩

theorem PrintedAll.cons {vs : List Term} (h : Printed v ts) (ht : t.Is ",")
    (hs : PrintedAll vs us) : PrintedAll (v :: vs) (ts ++ t :: us) where
  sign := by
    rw [exists_sign_append, exists_sign_cons, not_sign ht (by decide), h.sign, hs.sign]
    simp
  arguments ha := by
    simp only [List.mem_cons, exists_eq_or_imp, not_or] at ha
    obtain ⟨w, hw, hreads⟩ := h.factor ha.1
    obtain ⟨ws, hws, hreadss⟩ := hs.arguments ha.2
    exact ⟨w :: ws, .more (.product (.factor hw)) ht hws, .cons hreads hreadss⟩

theorem printed_call (hk : t.kind = .symbol) (himage : t.image = name) (ho : o.Is "(")
    (h : PrintedAll args ts) (hc : c.Is ")") (hneg : name = "$neg" → ∀ a, args ≠ [a])
    (hlet : name = "$let" → ∀ l r, args ≠ [l, r]) :
    Printed (.app (.sym name) args) (t :: o :: ts ++ [c]) := by
  have hassigns : Assigns (.app (.sym name) args) ↔ ∃ a ∈ args, Assigns a := by
    rw [assigns_app, or_iff_right]
    rintro ⟨hname, l, r, hargs⟩
    exact hlet hname l r hargs
  constructor
  · have hsign : (t.Is "=") = False := eq_false (Grammar.not_sign_of_kind (by simp [hk]))
    rw [hassigns, ← h.sign, exists_sign_append, exists_sign_cons, exists_sign_cons,
      exists_sign_cons, hsign, not_sign ho (by decide), not_sign hc (by decide)]
    simp
  · intro ha
    obtain ⟨ws, hws, hreads⟩ := h.arguments (mt hassigns.2 ha)
    refine ⟨_, .call hk ho hws hc, ?_⟩
    rw [himage]
    exact reads_app hreads fun hname a hargs => absurd hargs (hneg hname a)

end TermCalc.Term
