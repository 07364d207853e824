import Mathlib.Data.List.Chain
import TermCalc.Proofs.Token.Stopping

/-!
# Minus signs

A minus sign in front of a number is part of the number, or it is an operator. Which of the two it
is depends on what has been cut off in front of it, across any blanks and comments: it belongs to
the number exactly where an operand is expected. Two minus signs in a row begin a comment, so that
no other token contains them.

## Main definitions

* `Token.previous? ts`: the last of the tokens that the grammar sees
* `Token.OpensOperand t`, `Token.EndsOperand t`: behind `t` an operand is expected, or none is
* `Token.Signed t`: `t` is a constant with a minus sign

## Main results

* `Token.foldl_operandExpectedAfter_iff`: where an operand is expected
* `Lexer.token_of_scan`: every token is the first of what is left of the text in front of it
* `Lexer.not_doubled_of_lexeme?`: a token with two minus signs in a row is a comment
* `Token.read?_signs`: what the minus signs of a text belong to
-/

namespace TermCalc

/-! ## Where an operand is expected -/

namespace Token

/-- The last of the tokens that the grammar sees. -/
def previous? (ts : List Token) : Option Token :=
  (significant ts).getLast?

/-- The token is an operator that does not close a group. -/
def OpensOperand (t : Token) : Prop :=
  t.kind = .operator ∧ t.image ≠ ")" ∧ t.image ≠ "]"

/-- The token is a constant, a symbol or a closing bracket. -/
def EndsOperand (t : Token) : Prop :=
  t.kind = .constant ∨ t.kind = .symbol ∨ t.kind = .operator ∧ (t.image = ")" ∨ t.image = "]")

/-- The token is a constant with a minus sign. -/
def Signed (t : Token) : Prop :=
  t.kind = .constant ∧ t.image.toList.head? = some '-'

variable {t : Token} {ts : List Token}

theorem operandExpectedAfter_iff {operand : Bool} (h : t.isSignificant = true) :
    t.operandExpectedAfter operand = true ↔ t.OpensOperand := by
  simp [operandExpectedAfter, h, OpensOperand, and_assoc]

theorem endsOperand_of_not_opensOperand (h : t.isSignificant = true) (ho : ¬ t.OpensOperand) :
    t.EndsOperand := by
  rcases t with ⟨kind, image, position⟩
  cases kind with
  | constant => exact .inl rfl
  | symbol => exact .inr (.inl rfl)
  | operator =>
    refine .inr (.inr ⟨rfl, ?_⟩)
    by_contra hclose
    exact ho ⟨rfl, not_or.1 hclose⟩
  | whitespace => exact absurd h Bool.false_ne_true
  | comment => exact absurd h Bool.false_ne_true

theorem EndsOperand.not_opensOperand (h : t.EndsOperand) : ¬ t.OpensOperand := by
  rintro ⟨hk, hparen, hbracket⟩
  rcases h with h | h | ⟨-, h | h⟩
  · exact absurd (hk.symm.trans h) (by decide)
  · exact absurd (hk.symm.trans h) (by decide)
  · exact hparen h
  · exact hbracket h

/-- An operand is expected at the start and behind operators that do not close a group, whatever
blanks and comments come between. -/
theorem foldl_operandExpectedAfter_iff :
    ts.foldl operandExpectedAfter true = true ↔ ∀ p ∈ previous? ts, p.OpensOperand := by
  rw [← foldl_significant, previous?]
  rcases List.eq_nil_or_concat (significant ts) with hnil | ⟨us, p, hconcat⟩
  · simp [hnil]
  · have hp : p.isSignificant = true := by
      have hmem : p ∈ significant ts := by simp [hconcat]
      exact (List.mem_filter.1 hmem).2
    rw [hconcat, List.concat_eq_append, List.foldl_concat, List.getLast?_concat,
      operandExpectedAfter_iff hp]
    simp

/-- Where no operand is expected, something stands in front that ends one. -/
theorem exists_previous_of_not_expected (h : ts.foldl operandExpectedAfter true = false) :
    ∃ p ∈ previous? ts, p.EndsOperand := by
  have hnot : ¬ ∀ p ∈ previous? ts, p.OpensOperand := by
    rw [← foldl_operandExpectedAfter_iff, h]
    exact Bool.false_ne_true
  push Not at hnot
  obtain ⟨p, hp, hopens⟩ := hnot
  have hs := (List.mem_filter.1 (List.mem_of_mem_getLast? hp)).2
  exact ⟨p, hp, endsOperand_of_not_opensOperand hs hopens⟩

end Token

namespace Lexer

variable {operand : Bool} {position : Nat} {cs rest left : List Char} {kind : TokenKind} {n : Nat}

/-! ## Tokens of a scan -/

/-- The first token of a scan, and the scan of what is behind it. -/
theorem token_of_scan {t : Token} {ts : List Token}
    (h : scan operand position cs = (t :: ts, left)) :
    ∃ n, lexeme? operand cs = some (t.kind, n) ∧ t.image.toList = cs.take n ∧
      scan (t.operandExpectedAfter operand) (position + n) (cs.drop n) = (ts, left) := by
  cases hlexeme : lexeme? operand cs with
  | none =>
    rw [scan_of_lexeme?_eq_none hlexeme] at h
    cases h
  | some token =>
    obtain ⟨kind, n⟩ := token
    rw [scan_of_lexeme? position hlexeme] at h
    obtain ⟨⟨rfl, rfl⟩, rfl⟩ := h
    exact ⟨n, rfl, String.toList_ofList, rfl⟩

/-! ## Signs and numbers -/

/-- A constant begins with a minus sign only where an operand is expected. -/
theorem operand_of_minus_constant (h : lexeme? operand ('-' :: rest) = some (.constant, n)) :
    operand = true := by
  obtain ⟨hn, hne⟩ := extent_of_lexeme? h
  cases operand with
  | true => rfl
  | false =>
    have hzero : constantExtent false ('-' :: rest) = 0 := constantExtent_minus (by simp)
    exact absurd (hn.trans hzero) hne

/-- A minus sign that is an operator is not in front of another one, and where an operand is
expected not in front of a number. -/
theorem minus_operator (h : lexeme? operand ('-' :: rest) = some (.operator, n)) :
    (∀ c ∈ rest.head?, c ≠ '-') ∧ (operand = true → unsignedExtent rest = 0) := by
  have hcomment : commentExtent ('-' :: rest) = 0 := by
    by_contra hc
    cases h.symm.trans (lexeme?_eq_comment hc)
  constructor
  · rintro c hc rfl
    obtain ⟨tail, rfl⟩ := List.head?_eq_some_iff.1 hc
    rw [commentExtent] at hcomment
    omega
  · rintro rfl
    by_contra hu
    have hb : blankExtent ('-' :: rest) = 0 := blankExtent_cons (by decide)
    have hk : constantExtent true ('-' :: rest) ≠ 0 := by simp [constantExtent, hu]
    cases h.symm.trans (lexeme?_eq_constant hcomment hb hk)

/-- Where a minus sign is an operator although a number follows at once, no operand was expected. -/
theorem not_operand_of_minus {m : Nat} (h : lexeme? operand ('-' :: rest) = some (.operator, n))
    (hnext : lexeme? true rest = some (.constant, m)) (hnan : rest.take m ≠ "NaN".toList) :
    operand = false := by
  obtain ⟨hhead, hnumber⟩ := minus_operator h
  obtain ⟨hm, hne⟩ := extent_of_lexeme? hnext
  cases rest with
  | nil => exact absurd (lexeme?_nil true) (by rw [hnext]; exact Option.some_ne_none _)
  | cons c tail =>
    rw [extent, constantExtent_cons (hhead c rfl)] at hm
    split_ifs at hm with hname
    · subst hm
      exact absurd (List.prefix_iff_eq_take.1 (List.isPrefixOf_iff_prefix.1 hname)).symm hnan
    · cases operand with
      | false => rfl
      | true => exact absurd (hm.trans (hnumber rfl)) hne

/-! ## Minus signs in a row -/

/-- No two minus signs stand next to each other. -/
def NotDoubled (cs : List Char) : Prop :=
  cs.IsChain fun a b => ¬ (a = '-' ∧ b = '-')

theorem NotDoubled.not_infix (h : NotDoubled cs) : ¬ ['-', '-'] <:+: cs := by
  rintro ⟨us, vs, rfl⟩
  have hsplit : us ++ ['-', '-'] ++ vs = us ++ '-' :: '-' :: vs := by simp
  exact List.isChain_iff_forall_rel_of_append_cons_cons.1 h hsplit ⟨rfl, rfl⟩

/-- Characters other than the minus sign may stand in front. -/
theorem NotDoubled.append {us : List Char} (hus : '-' ∉ us) (h : NotDoubled cs) :
    NotDoubled (us ++ cs) := by
  induction us with
  | nil => exact h
  | cons c us ih =>
    obtain ⟨hc, hus⟩ := not_or.1 (mt List.mem_cons.2 hus)
    exact List.isChain_cons.2 ⟨fun d _ hcd => hc hcd.1.symm, ih hus⟩

theorem notDoubled_of_not_mem (h : '-' ∉ cs) : NotDoubled cs := by
  rw [← List.append_nil cs]
  exact .append h .nil

theorem NotDoubled.minus (hhead : ∀ c ∈ cs.head?, c ≠ '-') (h : NotDoubled cs) :
    NotDoubled ('-' :: cs) :=
  List.isChain_cons.2 ⟨fun c hc hcd => hhead c hc hcd.2, h⟩

theorem minus_not_mem_digits {ds : List Char} (h : ∀ c ∈ ds, Text.isDigit c = true) : '-' ∉ ds :=
  fun hmem => absurd (h _ hmem) (by decide +kernel)

/-- The sign of an exponent stands between its letter and its digits. -/
theorem notDoubled_exponent (h : Literal.Exponent Text.isDigit cs) : NotDoubled cs := by
  cases h with
  | none => exact .nil
  | @power letter sign ds hletter hsign hne hds =>
    have hdigits := minus_not_mem_digits hds
    have hminus : '-' ∉ [letter] := by
      intro hmem
      rw [← List.mem_singleton.1 hmem] at hletter
      exact absurd hletter (by decide)
    refine NotDoubled.append hminus ?_
    simp only [List.mem_cons, List.not_mem_nil, or_false] at hsign
    rcases hsign with rfl | rfl | rfl
    · exact notDoubled_of_not_mem hdigits
    · exact .append (by decide) (notDoubled_of_not_mem hdigits)
    · refine .minus (fun c hc => ?_) (notDoubled_of_not_mem hdigits)
      rintro rfl
      exact hdigits (List.mem_of_mem_head? hc)

theorem notDoubled_unsigned (h : Unsigned cs) : NotDoubled cs := by
  rcases h with rfl | h
  · exact notDoubled_of_not_mem (by decide)
  · obtain @⟨whole, fraction, exponent, hwhole, hfraction, hexponent, -⟩ := h
    have hpoint : '-' ∉ fraction := by
      cases hfraction with
      | none => exact List.not_mem_nil
      | point hne hds =>
        exact List.not_mem_cons_of_ne_of_not_mem (by decide) (minus_not_mem_digits hds)
    exact .append (minus_not_mem_digits hwhole) (.append hpoint (notDoubled_exponent hexponent))

theorem notDoubled_constant (h : constantExtent operand cs ≠ 0) :
    NotDoubled (cs.take (constantExtent operand cs)) := by
  rcases constant_parts h with hnan | ⟨sign, us, hsign, htake, hus⟩
  · rw [hnan]
    exact notDoubled_of_not_mem (by decide)
  · have hunsigned : Unsigned us := hus
    rw [htake]
    rcases hsign with rfl | ⟨rfl, -⟩
    · exact notDoubled_unsigned hunsigned
    · obtain ⟨c, tail, rfl, hminus, -⟩ := hunsigned.head
      refine .minus (fun d hd => ?_) (notDoubled_unsigned hunsigned)
      obtain rfl := Option.some.inj hd
      exact hminus

theorem notDoubled_operator : NotDoubled (cs.take (operatorExtent cs)) := by
  rw [operatorExtent.eq_def]
  split
  next rest => exact .minus (by simp) (.singleton _)
  next c rest _ =>
    split_ifs
    · exact .singleton _
    · exact .nil
  next => exact .nil

theorem minus_not_mem_symbol : '-' ∉ cs.take (symbolExtent cs) := by
  cases cs with
  | nil => exact List.not_mem_nil
  | cons c tail =>
    by_cases hc : isSymbolStart c = true
    · rw [symbolExtent, if_pos hc, Nat.add_comm, List.take_succ_cons,
        ← List.prefix_iff_eq_take.1 (List.takeWhile_prefix _)]
      refine List.not_mem_cons_of_ne_of_not_mem (symbolStart_foreign hc).1.symm fun hmem => ?_
      exact absurd (List.mem_takeWhile_imp hmem) (by decide)
    · rw [symbolExtent, if_neg hc]
      exact List.not_mem_nil

/-- A token with two minus signs in a row is a comment. -/
theorem not_doubled_of_lexeme? (h : lexeme? operand cs = some (kind, n)) (hk : kind ≠ .comment) :
    ¬ ['-', '-'] <:+: cs.take n := by
  obtain ⟨rfl, hne⟩ := extent_of_lexeme? h
  apply NotDoubled.not_infix
  cases kind with
  | comment => exact absurd rfl hk
  | whitespace =>
    apply notDoubled_of_not_mem
    rw [extent, blankExtent, ← List.prefix_iff_eq_take.1 (List.takeWhile_prefix _)]
    exact fun hmem => absurd (List.mem_takeWhile_imp hmem) (by decide)
  | constant => exact notDoubled_constant hne
  | operator => exact notDoubled_operator
  | symbol => exact notDoubled_of_not_mem minus_not_mem_symbol

end Lexer

/-! ## The minus signs of a text -/

namespace Token

variable {source : String} {ts before after : List Token} {t u : Token}

/-- The tokens of a text from one of its places on are those of what is left of it there. -/
theorem exists_scan_of_read? (h : read? source = .ok (before ++ after)) :
    ∃ position cs,
      Lexer.scan (before.foldl operandExpectedAfter true) position cs = (after, []) := by
  rw [read?_eq_ok_iff_scan] at h
  have hscan := Lexer.scan_drop_width (congrArg Prod.fst h)
  rw [h] at hscan
  exact ⟨_, _, hscan⟩

theorem cons_of_head?_take {cs : List Char} {c : Char} {n : Nat}
    (h : (cs.take n).head? = some c) : ∃ rest, cs = c :: rest := by
  obtain ⟨rest, hrest⟩ := List.head?_eq_some_iff.1 h
  exact ⟨rest ++ cs.drop n, by rw [← List.cons_append, ← hrest, List.take_append_drop]⟩

/-- In front of a constant with a sign an operand is expected. -/
theorem Signed.expected (ht : t.Signed) (h : read? source = .ok (before ++ t :: after)) :
    before.foldl operandExpectedAfter true = true := by
  obtain ⟨position, cs, hscan⟩ := exists_scan_of_read? h
  obtain ⟨n, hlexeme, himage, -⟩ := Lexer.token_of_scan hscan
  obtain ⟨hk, hhead⟩ := ht
  rw [himage] at hhead
  obtain ⟨rest, rfl⟩ := cons_of_head?_take hhead
  rw [hk] at hlexeme
  exact Lexer.operand_of_minus_constant hlexeme

/-- In front of a minus sign by itself that a number follows at once no operand is expected. -/
theorem not_expected_of_minus (h : read? source = .ok (before ++ t :: u :: after))
    (ht : t.Is "-") (hu : u.kind = .constant) (hnan : u.image ≠ "NaN") :
    before.foldl operandExpectedAfter true = false := by
  obtain ⟨position, cs, hscan⟩ := exists_scan_of_read? h
  obtain ⟨n, hlexeme, himage, hnext⟩ := Lexer.token_of_scan hscan
  obtain ⟨m, hlexeme', himage', -⟩ := Lexer.token_of_scan hnext
  have hsign : cs.take n = ['-'] := by rw [← himage, ht.2]; rfl
  obtain ⟨rest, rfl⟩ : ∃ rest, cs = '-' :: rest :=
    cons_of_head?_take (n := n) (by rw [hsign]; rfl)
  have hn : n = 1 := by
    have hle : n ≤ ('-' :: rest).length :=
      (Lexer.extent_of_lexeme? hlexeme).1 ▸ Lexer.extent_le_length _ _ _
    have hlength := congrArg List.length hsign
    rwa [List.length_take_of_le hle] at hlength
  subst hn
  have hexpected : t.operandExpectedAfter (before.foldl operandExpectedAfter true) = true := by
    refine (operandExpectedAfter_iff ?_).2 ⟨ht.1, ?_, ?_⟩
    · rw [isSignificant, ht.1]
      rfl
    · rw [ht.2]
      decide
    · rw [ht.2]
      decide
  rw [ht.1] at hlexeme
  rw [hexpected, hu, List.drop_one, List.tail_cons] at hlexeme'
  refine Lexer.not_operand_of_minus hlexeme hlexeme' fun hname => hnan ?_
  rw [← String.toList_inj, himage', List.drop_one, List.tail_cons, hname]

/-- Two tokens next to each other among those that the grammar sees. -/
theorem exists_of_significant_eq {us vs : List Token} {p : Token}
    (h : significant ts = us ++ p :: t :: vs) :
    ∃ before after, ts = before ++ t :: after ∧ previous? before = some p := by
  rw [← List.singleton_append, ← List.append_assoc] at h
  obtain ⟨first, second, rfl, hfirst, hsecond⟩ := List.filter_eq_append_iff.1 h
  obtain ⟨between, after, rfl, hbetween, -, -⟩ := List.filter_eq_cons_iff.1 hsecond
  have hnone : between.filter isSignificant = [] := List.filter_eq_nil_iff.2 hbetween
  refine ⟨first ++ between, after, (List.append_assoc _ _ _).symm, ?_⟩
  rw [previous?, significant, List.filter_append, hnone, List.append_nil, hfirst,
    List.getLast?_concat]

/-- **What the minus signs of a text belong to.** In the tokens of a text every constant with a minus
sign stands at the start or behind an operator that does not close a group, across any blanks and
comments. Conversely, what stands in front of the operator `-` ends an operand if a constant other
than `NaN` begins at the very next character. No token with two minus signs in a row is anything but
a comment. So among the tokens that the grammar sees no constant with a minus sign comes next to a
constant, a symbol or a closing bracket in front of it. -/
theorem read?_signs (h : read? source = .ok ts) :
    (∀ before t after, ts = before ++ t :: after → t.Signed →
      ∀ p ∈ previous? before, p.OpensOperand) ∧
    (∀ before t u after, ts = before ++ t :: u :: after → t.Is "-" → u.kind = .constant →
      u.image ≠ "NaN" → ∃ p ∈ previous? before, p.EndsOperand) ∧
    (∀ t ∈ ts, ['-', '-'] <:+: t.image.toList → t.kind = .comment) ∧
    ∀ before p t after, significant ts = before ++ p :: t :: after → t.Signed →
      ¬ p.EndsOperand := by
  refine ⟨?_, ?_, ?_, ?_⟩
  · rintro before t after rfl ht
    exact foldl_operandExpectedAfter_iff.1 (ht.expected h)
  · rintro before t u after rfl ht hu hnan
    exact exists_previous_of_not_expected (not_expected_of_minus h ht hu hnan)
  · intro t ht hdoubled
    obtain ⟨before, after, rfl⟩ := List.append_of_mem ht
    obtain ⟨position, cs, hscan⟩ := exists_scan_of_read? h
    obtain ⟨n, hlexeme, himage, -⟩ := Lexer.token_of_scan hscan
    by_contra hk
    exact Lexer.not_doubled_of_lexeme? hlexeme hk (himage ▸ hdoubled)
  · intro before p t after hts ht hends
    obtain ⟨before, after, rfl, hprevious⟩ := exists_of_significant_eq hts
    exact hends.not_opensOperand (foldl_operandExpectedAfter_iff.1 (ht.expected h) p hprevious)

/-- The first minus sign belongs to no number, since `x` stands in front of it across a comment and a
line break; the second one belongs to the number behind it. -/
theorem read?_signs_across_comment :
    ∃ ts before middle after, read? "x -- y\n-1 * -2.5e-3" = .ok ts ∧
      ts = before ++ ⟨.operator, "-", 7⟩ :: ⟨.constant, "1", 8⟩ :: middle ++
        ⟨.constant, "-2.5e-3", 12⟩ :: after ∧
      (∃ p ∈ previous? before, p.EndsOperand) ∧
      ∀ p ∈ previous? (before ++ ⟨.operator, "-", 7⟩ :: ⟨.constant, "1", 8⟩ :: middle),
        p.OpensOperand := by
  have hread : read? "x -- y\n-1 * -2.5e-3" = .ok
      ([⟨.symbol, "x", 0⟩, ⟨.whitespace, " ", 1⟩, ⟨.comment, "-- y", 2⟩, ⟨.whitespace, "\n", 6⟩] ++
        ⟨.operator, "-", 7⟩ :: ⟨.constant, "1", 8⟩ ::
        [⟨.whitespace, " ", 9⟩, ⟨.operator, "*", 10⟩, ⟨.whitespace, " ", 11⟩] ++
        [⟨.constant, "-2.5e-3", 12⟩]) := by
    decide +kernel
  obtain ⟨hsigned, hminus, -, -⟩ := read?_signs hread
  refine ⟨_, _, _, _, hread, rfl, hminus _ _ _ _ rfl ⟨rfl, rfl⟩ rfl (by decide), ?_⟩
  exact hsigned _ _ _ rfl ⟨rfl, by decide⟩

end Token

end TermCalc
