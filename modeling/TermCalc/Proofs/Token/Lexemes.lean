import TermCalc.Proofs.Number.Numeral
import TermCalc.Token.Lexer

/-!
# The tokens that a text is cut into

What the image of a token tells about its kind, and its kind about its image, when the token comes
from cutting a text. The grammar recognises operators and brackets by their images and constants and
symbols by their kinds; on such tokens the two never disagree.

## Main definitions

* `Token.marks`: the images that the grammar recognises
* `Token.Lexical t`: only operators have those images, symbols have names, constants are numerals

## Main results

* `Lexer.numeral_of_numeralExtent`: the extent of a numeral is that of a numeral
* `Lexer.constant_parts`: the extent of a constant is that of a number with or without a sign
* `Token.lexical_of_mem_significant`: the significant tokens of a text are lexical
-/

namespace TermCalc

open Literal (Numeral Fraction Exponent)

/-! ## Numerals at the front of a text -/

namespace Lexer

variable {cs : List Char}

theorem take_digitsExtent (cs : List Char) :
    cs.take (digitsExtent cs) = cs.takeWhile Text.isDigit :=
  (List.prefix_iff_eq_take.1 (List.takeWhile_prefix _)).symm

theorem isDigit_of_mem_take_digitsExtent :
    ∀ c ∈ cs.take (digitsExtent cs), Text.isDigit c := by
  rw [take_digitsExtent]
  exact fun c hc => List.mem_takeWhile_imp hc

theorem take_digitsExtent_ne_nil (h : digitsExtent cs ≠ 0) : cs.take (digitsExtent cs) ≠ [] := by
  rw [take_digitsExtent]
  exact fun hnil => h (by rw [digitsExtent, hnil]; rfl)

/-- The extent of a mantissa is that of digits and a fraction. -/
theorem parts_of_mantissaExtent (h : mantissaExtent cs ≠ 0) :
    ∃ whole fraction, cs.take (mantissaExtent cs) = whole ++ fraction ∧
      (∀ c ∈ whole, Text.isDigit c) ∧ Fraction Text.isDigit fraction ∧
        (whole ≠ [] ∨ fraction ≠ []) := by
  by_cases hpoint : ∃ rest, cs.drop (digitsExtent cs) = '.' :: rest ∧ digitsExtent rest ≠ 0
  · obtain ⟨rest, hrest, hne⟩ := hpoint
    have he : mantissaExtent cs = digitsExtent cs + (1 + digitsExtent rest) := by
      simp only [mantissaExtent, hrest, hne, beq_iff_eq, if_false]
      omega
    refine ⟨cs.take (digitsExtent cs), '.' :: rest.take (digitsExtent rest), ?_,
      isDigit_of_mem_take_digitsExtent,
      .point (take_digitsExtent_ne_nil hne) isDigit_of_mem_take_digitsExtent,
      .inr (List.cons_ne_nil _ _)⟩
    rw [he, List.take_add, hrest, Nat.add_comm 1, List.take_succ_cons]
  · have he : mantissaExtent cs = digitsExtent cs := by
      rw [mantissaExtent]
      split
      next rest hrest =>
        have hzero : digitsExtent rest = 0 := by
          by_contra hne
          exact hpoint ⟨rest, hrest, hne⟩
        rw [hzero]
        rfl
      next => rfl
    rw [he] at h ⊢
    exact ⟨cs.take (digitsExtent cs), [], (List.append_nil _).symm,
      isDigit_of_mem_take_digitsExtent, .none, .inl (take_digitsExtent_ne_nil h)⟩

/-- After the letter of an exponent a sign may stand before the digits. -/
theorem exponentExtent_letter {c : Char} (hc : c ∈ ['e', 'E']) (rest : List Char) :
    ∃ sign digits, rest = sign ++ digits ∧ sign ∈ [[], ['+'], ['-']] ∧
      exponentExtent (c :: rest) =
        if digitsExtent digits = 0 then 0 else 1 + sign.length + digitsExtent digits := by
  obtain ⟨-, -, -, hletter⟩ := Literal.exponent_letter hc
  cases rest with
  | nil => exact ⟨[], [], rfl, by decide, by simp [exponentExtent, digitsExtent]⟩
  | cons s digits =>
    by_cases hs : (s == '+' || s == '-') = true
    · refine ⟨[s], digits, rfl, ?_, ?_⟩
      · rcases Bool.or_eq_true_iff.1 hs with hs | hs
        · rw [beq_iff_eq.1 hs]
          decide
        · rw [beq_iff_eq.1 hs]
          decide
      · simp only [exponentExtent, hletter, hs, if_true, List.drop_one, List.tail_cons, beq_iff_eq,
          List.length_singleton]
    · refine ⟨[], s :: digits, rfl, by decide, ?_⟩
      simp only [exponentExtent, hletter, hs, if_true, if_false, Bool.false_eq_true, beq_iff_eq,
        List.length_nil]

/-- The extent of an exponent is that of an exponent. -/
theorem exponent_of_exponentExtent (cs : List Char) :
    Exponent Text.isDigit (cs.take (exponentExtent cs)) := by
  cases cs with
  | nil => exact .none
  | cons c rest =>
    by_cases hc : c ∈ ['e', 'E']
    · obtain ⟨sign, digits, rfl, hs, he⟩ := exponentExtent_letter hc rest
      rw [he]
      split
      next => exact .none
      next hne =>
        rw [Nat.add_assoc, Nat.add_comm 1, List.take_succ_cons, List.take_length_add_append]
        exact .power hc hs (take_digitsExtent_ne_nil hne) isDigit_of_mem_take_digitsExtent
    · have he : exponentExtent (c :: rest) = 0 := by
        have hletter : (c == 'e' || c == 'E') = false := by simpa using hc
        simp only [exponentExtent, hletter, Bool.false_eq_true, if_false]
      rw [he]
      exact .none

/-- The extent of a numeral is that of a numeral. -/
theorem numeral_of_numeralExtent (h : numeralExtent cs ≠ 0) :
    Numeral Text.isDigit (cs.take (numeralExtent cs)) := by
  by_cases hm : mantissaExtent cs = 0
  · exact absurd (by rw [numeralExtent, hm]; rfl) h
  · obtain ⟨whole, fraction, htake, hw, hf, hne⟩ := parts_of_mantissaExtent hm
    have he : numeralExtent cs =
        mantissaExtent cs + exponentExtent (cs.drop (mantissaExtent cs)) := by
      simp only [numeralExtent, hm, beq_iff_eq, if_false]
    rw [he, List.take_add, htake, List.append_assoc]
    exact .parts hw hf (exponent_of_exponentExtent _) hne

/-- An unsigned number is the word for infinity or a numeral. -/
theorem take_unsignedExtent (h : unsignedExtent cs ≠ 0) :
    cs.take (unsignedExtent cs) = "Infinity".toList ∨
      Numeral Text.isDigit (cs.take (unsignedExtent cs)) := by
  rw [unsignedExtent] at h ⊢
  split
  next hinf => exact .inl (List.prefix_iff_eq_take.1 (List.isPrefixOf_iff_prefix.1 hinf)).symm
  next hinf =>
    rw [if_neg hinf] at h
    exact .inr (numeral_of_numeralExtent h)

/-! ## Constants and symbols at the front of a text -/

/-- A word for infinity or a numeral denotes a number, with a minus sign in front or without. -/
theorem number?_isSome_of_unsigned {sign : List Char} (hs : sign ∈ [[], ['-']])
    (h : cs = "Infinity".toList ∨ Numeral Text.isDigit cs) :
    (number? (String.ofList (sign ++ cs))).isSome = true := by
  rcases h with rfl | h
  · have hall : ∀ sign ∈ [[], ['-']],
        (number? (String.ofList (sign ++ "Infinity".toList))).isSome = true := by
      decide +kernel
    exact hall sign hs
  · exact Literal.number?_isSome_of_numeral hs h

/-- A constant of a text is the name of no number or an unsigned number, in front of which a minus
sign may stand where an operand is expected. -/
theorem constant_parts {operand : Bool} (h : constantExtent operand cs ≠ 0) :
    cs.take (constantExtent operand cs) = "NaN".toList ∨
      ∃ sign us, (sign = [] ∨ sign = ['-'] ∧ operand = true) ∧
        cs.take (constantExtent operand cs) = sign ++ us ∧
        (us = "Infinity".toList ∨ Numeral Text.isDigit us) := by
  by_cases hminus : operand = true ∧ ∃ rest, cs = '-' :: rest
  · obtain ⟨rfl, rest, rfl⟩ := hminus
    have hnan : "NaN".toList.isPrefixOf ('-' :: rest) = false := rfl
    by_cases hu : unsignedExtent rest = 0
    · exact absurd (by simp [constantExtent, hu]) h
    · have he : constantExtent true ('-' :: rest) = unsignedExtent rest + 1 := by
        simp only [constantExtent, hnan, hu, Bool.false_eq_true, beq_iff_eq, if_false]
        omega
      rw [he, List.take_succ_cons]
      exact .inr ⟨['-'], _, .inr ⟨rfl, rfl⟩, rfl, take_unsignedExtent hu⟩
  · have he : constantExtent operand cs =
        if "NaN".toList.isPrefixOf cs then 3 else unsignedExtent cs := by
      rw [constantExtent]
      exact fun rest ho hc => hminus ⟨ho, rest, hc⟩
    rw [he] at h ⊢
    split
    next hnan =>
      exact .inl (List.prefix_iff_eq_take.1 (List.isPrefixOf_iff_prefix.1 hnan)).symm
    next hnan =>
      rw [if_neg hnan] at h
      exact .inr ⟨[], _, .inl rfl, rfl, take_unsignedExtent h⟩

/-- Every constant of a text denotes a number. -/
theorem number?_isSome_of_constantExtent {operand : Bool} (h : constantExtent operand cs ≠ 0) :
    (number? (String.ofList (cs.take (constantExtent operand cs)))).isSome = true := by
  rcases constant_parts h with hnan | ⟨sign, us, hsign, htake, hus⟩
  · rw [hnan]
    decide +kernel
  · have hmem : sign ∈ [[], ['-']] := by
      rcases hsign with rfl | ⟨rfl, -⟩
      · decide
      · decide
    rw [htake]
    exact number?_isSome_of_unsigned hmem hus

theorem head?_of_symbolExtent (h : symbolExtent cs ≠ 0) :
    ∃ c, (cs.take (symbolExtent cs)).head? = some c ∧ isSymbolStart c = true := by
  cases cs with
  | nil => exact absurd rfl h
  | cons c rest =>
    by_cases hc : isSymbolStart c = true
    · have he : symbolExtent (c :: rest) = (rest.takeWhile isSymbolPart).length + 1 := by
        rw [symbolExtent, if_pos hc, Nat.add_comm]
      exact ⟨c, by rw [he, List.take_succ_cons]; rfl, hc⟩
    · exact absurd (by rw [symbolExtent, if_neg hc]) h

/-! ## All tokens of a text -/

theorem extent_of_lexeme? {operand : Bool} {kind : TokenKind} {n : Nat}
    (h : lexeme? operand cs = some (kind, n)) : n = extent operand cs kind ∧ n ≠ 0 := by
  have hpos := extent_pos_of_lexeme? h
  obtain ⟨k, -, he⟩ := Option.map_eq_some_iff.1 h
  obtain ⟨rfl, rfl⟩ := Prod.mk.inj he
  exact ⟨rfl, by omega⟩

/-- What holds of every first token of a text holds of all tokens of a text. -/
theorem forall_mem_scan {P : Token → Prop}
    (hP : ∀ operand cs kind n position, lexeme? operand cs = some (kind, n) →
      P ⟨kind, String.ofList (cs.take n), position⟩)
    (operand : Bool) (position : Nat) (cs : List Char) :
    ∀ t ∈ (scan operand position cs).1, P t := by
  -- the recursion of the scan: no token starts here, or one does and the rest is scanned
  induction operand, position, cs using scan.induct with
  | case1 operand position cs h =>
    rw [scan, h]
    exact fun t ht => nomatch ht
  | case2 operand position cs kind n h t ts left hscan ih =>
    rw [scan]
    split
    next hnone => exact fun _ hu => nomatch hu
    next hsome =>
      cases h.symm.trans hsome
      exact List.forall_mem_cons.2 ⟨hP operand cs kind n position h, ih⟩

end Lexer

namespace Token

/-! ## Lexical tokens -/

/-- The images that the grammar recognises. -/
def marks : List String :=
  ["=", "+", "-", "*", "/", "%", "(", ")", "[", "]", ","]

/-- What a token of a text is known to be: only operators have the images that the grammar
recognises, symbols have names and constants denote numbers. -/
structure Lexical (t : Token) : Prop where
  operator : t.image ∈ marks → t.kind = .operator
  named : t.kind = .symbol → t.image ≠ ""
  number : t.kind = .constant → (number? t.image).isSome = true

/-- No mark is a number and none begins a symbol. -/
theorem marks_foreign :
    ∀ mark ∈ marks, (number? mark).isSome = false ∧
      mark.toList.head?.any Lexer.isSymbolStart = false := by
  decide +kernel

/-- The first token of a text is lexical if the grammar sees it. -/
theorem lexical_of_lexeme? {operand : Bool} {cs : List Char} {kind : TokenKind} {n : Nat}
    {position : Int} (h : Lexer.lexeme? operand cs = some (kind, n))
    (hs : isSignificant ⟨kind, String.ofList (cs.take n), position⟩ = true) :
    Lexical ⟨kind, String.ofList (cs.take n), position⟩ := by
  obtain ⟨rfl, hne⟩ := Lexer.extent_of_lexeme? h
  cases kind with
  | constant =>
    have hnum := Lexer.number?_isSome_of_constantExtent hne
    refine ⟨fun hm => ?_, (fun hk => nomatch hk), fun _ => hnum⟩
    exact absurd (hnum.symm.trans (marks_foreign _ hm).1) (by decide)
  | symbol =>
    obtain ⟨c, hc, hstart⟩ := Lexer.head?_of_symbolExtent hne
    refine ⟨fun hm => ?_, fun _ hempty => ?_, fun hk => nomatch hk⟩
    · have hhead := (marks_foreign _ hm).2
      simp only [String.toList_ofList, Lexer.extent, hc, Option.any_some] at hhead
      exact absurd (hstart.symm.trans hhead) (by decide)
    · have hnil : cs.take (Lexer.symbolExtent cs) = [] := by
        rw [← String.toList_ofList (l := cs.take (Lexer.symbolExtent cs))]
        exact congrArg String.toList hempty
      rw [hnil] at hc
      cases hc
  | operator => exact ⟨fun _ => rfl, (fun hk => nomatch hk), fun hk => nomatch hk⟩
  | whitespace => exact absurd hs Bool.false_ne_true
  | comment => exact absurd hs Bool.false_ne_true

/-- The tokens of a text are those of the scan of it. -/
theorem eq_scan_of_ofSource? {source : String} {ts : List Token}
    (h : Token.ofSource? source = .ok ts) : ts = (Lexer.scan true 0 source.toList).1 := by
  simp only [Token.ofSource?] at h
  split at h
  · exact (Except.ok.inj h).symm
  · cases h

/-- The significant tokens of a text are lexical. -/
theorem lexical_of_mem_significant {source : String} {ts : List Token}
    (h : Token.ofSource? source = .ok ts) : ∀ t ∈ significant ts, t.Lexical := by
  intro t ht
  obtain ⟨hmem, hs⟩ := List.mem_filter.1 ht
  have hscan := eq_scan_of_ofSource? h
  have hall : ∀ u ∈ (Lexer.scan true 0 source.toList).1, isSignificant u = true → Lexical u :=
    Lexer.forall_mem_scan (fun _ _ _ _ _ hl hu => lexical_of_lexeme? hl hu) true 0 source.toList
  exact hall t (hscan ▸ hmem) hs

end Token

end TermCalc
