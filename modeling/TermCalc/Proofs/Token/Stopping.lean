import TermCalc.Failure
import TermCalc.Proofs.Token.Trailing

/-!
# Where cutting a text stops

A text is cut into tokens from the front on, up to the first place where no token begins. Whether
one begins is decided by one character, or by two at a point, and not by what came before. What has
been cut off when cutting stops is cut into the same tokens if it stands alone: a token never looks
behind its own end.

## Main definitions

* `Lexer.Begins cs`: the characters with which a token begins
* `Token.width ts`: the number of characters in the images of tokens
* `Token.consumed source`: the tokens that are cut off a text

## Main results

* `Lexer.lexeme?_isSome_iff`: a token is found exactly where one begins
* `Lexer.local_extent`, `Lexer.scan_of_append`: a token or a scan does not depend on what follows
  behind its end
* `Lexer.scan_drop_width`: what a scan does at a place that it has reached
* `Token.read?_tiles_up_to_stop`: the tokens of a text, and where there are none
-/

namespace TermCalc

namespace Lexer

variable {operand : Bool} {us rest : List Char} {p : Char → Bool}

/-! ## Where a token begins -/

/-- What a token begins with: a blank, a digit of any script, an ASCII letter, `_`, `$`, an
operator, or a point in front of a digit. -/
inductive Begins : List Char → Prop
  | blank {c rest} (h : Text.isBlank c = true) : Begins (c :: rest)
  | digit {c rest} (h : Text.isDigit c = true) : Begins (c :: rest)
  | letter {c rest} (h : c.isAlpha = true) : Begins (c :: rest)
  | mark {c rest} (h : c ∈ ['_', '$']) : Begins (c :: rest)
  | operator {c rest} (h : c ∈ ['=', '+', '-', '*', '/', '(', ')', '[', ']', '^', '%', ',']) :
    Begins (c :: rest)
  | point {d rest} (h : Text.isDigit d = true) : Begins ('.' :: d :: rest)

theorem lexeme?_isSome_iff_extent {cs : List Char} :
    (lexeme? operand cs).isSome = true ↔ ∃ kind, extent operand cs kind ≠ 0 := by
  have hall : ∀ kind, kind ∈ kindOrder := by
    intro kind
    cases kind <;> decide
  simp [lexeme?, Option.isSome_map, List.find?_isSome, hall]

theorem digitsExtent_cons_eq_zero {c : Char} (h : Text.isDigit c ≠ true) :
    digitsExtent (c :: rest) = 0 := by
  rw [digitsExtent, List.takeWhile_cons, if_neg h]
  rfl

theorem digitsExtent_cons_ne_zero {c : Char} (h : Text.isDigit c = true) :
    digitsExtent (c :: rest) ≠ 0 := by
  rw [digitsExtent, List.takeWhile_cons, if_pos h]
  exact Nat.succ_ne_zero _

/-- Numerals begin with a digit or with a point in front of one. -/
theorem begins_of_numeralExtent {cs : List Char} (h : numeralExtent cs ≠ 0) : Begins cs := by
  have hmantissa : mantissaExtent cs ≠ 0 := fun hzero => h (by rw [numeralExtent, hzero]; rfl)
  cases cs with
  | nil => exact absurd rfl hmantissa
  | cons c rest =>
    by_cases hc : Text.isDigit c = true
    · exact .digit hc
    · simp only [mantissaExtent, digitsExtent_cons_eq_zero hc, List.drop_zero] at hmantissa
      split at hmantissa
      next _ fraction heq =>
        obtain ⟨rfl, rfl⟩ := List.cons.inj heq
        cases rest with
        | nil => exact absurd rfl hmantissa
        | cons d tail =>
          by_cases hd : Text.isDigit d = true
          · exact .point hd
          · rw [digitsExtent_cons_eq_zero hd] at hmantissa
            exact absurd rfl hmantissa
      next => exact absurd rfl hmantissa

/-- A word that begins with a letter is one of the ways to begin a token. -/
theorem begins_of_prefix {c : Char} {word cs : List Char} (hc : c.isAlpha = true)
    (h : (c :: word).isPrefixOf cs = true) : Begins cs := by
  obtain ⟨tail, rfl⟩ := List.isPrefixOf_iff_prefix.1 h
  exact .letter hc

theorem begins_of_unsignedExtent {cs : List Char} (h : unsignedExtent cs ≠ 0) : Begins cs := by
  rw [unsignedExtent] at h
  split_ifs at h with hinf
  · exact begins_of_prefix (by decide) hinf
  · exact begins_of_numeralExtent h

/-- Where a token is found one begins. -/
theorem begins_of_extent {cs : List Char} {kind : TokenKind} (h : extent operand cs kind ≠ 0) :
    Begins cs := by
  cases kind with
  | comment =>
    rw [extent, commentExtent.eq_def] at h
    split at h
    · exact .operator (by decide)
    · exact absurd rfl h
  | whitespace =>
    cases cs with
    | nil => exact absurd rfl h
    | cons c rest =>
      by_cases hc : Text.isBlank c = true
      · exact .blank hc
      · rw [extent, blankExtent_cons (by simpa using hc)] at h
        exact absurd rfl h
  | constant =>
    rw [extent, constantExtent.eq_def] at h
    split_ifs at h with hnan
    · exact begins_of_prefix (by decide) hnan
    · split at h
      · exact .operator (by decide)
      · exact begins_of_unsignedExtent h
  | operator =>
    rw [extent, operatorExtent.eq_def] at h
    split at h
    · exact .operator (by decide)
    · split_ifs at h with hc
      · exact .operator (List.contains_iff_mem.1 hc)
      · exact absurd rfl h
    · exact absurd rfl h
  | symbol =>
    cases cs with
    | nil => exact absurd rfl h
    | cons c rest =>
      by_cases hc : isSymbolStart c = true
      · simp only [isSymbolStart, Bool.or_eq_true, beq_iff_eq] at hc
        rcases hc with (hc | rfl) | rfl
        · exact .letter hc
        · exact .mark (by decide)
        · exact .mark (by decide)
      · rw [extent, symbolExtent, if_neg hc] at h
        exact absurd rfl h

/-- A number is found where a numeral begins. -/
theorem constantExtent_ne_zero {c : Char} (hminus : c ≠ '-')
    (h : mantissaExtent (c :: rest) ≠ 0) : constantExtent operand (c :: rest) ≠ 0 := by
  have hnumeral : numeralExtent (c :: rest) ≠ 0 := by
    simp only [numeralExtent, beq_iff_eq, h, if_false]
    omega
  rw [constantExtent_cons hminus, unsignedExtent]
  split_ifs
  · decide
  · decide
  · exact hnumeral

theorem mantissaExtent_of_digit {c : Char} (h : Text.isDigit c = true) :
    mantissaExtent (c :: rest) ≠ 0 := by
  have hwhole : digitsExtent (c :: rest) ≠ 0 := digitsExtent_cons_ne_zero h
  simp only [mantissaExtent]
  split
  · split_ifs
    · exact hwhole
    · omega
  · exact hwhole

theorem mantissaExtent_of_point {d : Char} (h : Text.isDigit d = true) :
    mantissaExtent ('.' :: d :: rest) ≠ 0 := by
  have hpoint : Text.isDigit '.' ≠ true := by decide +kernel
  simp only [mantissaExtent, digitsExtent_cons_eq_zero hpoint, List.drop_zero, beq_iff_eq,
    digitsExtent_cons_ne_zero h, if_false]
  omega

theorem symbolExtent_ne_zero {c : Char} (h : isSymbolStart c = true) :
    symbolExtent (c :: rest) ≠ 0 := by
  rw [symbolExtent, if_pos h]
  omega

theorem operatorExtent_ne_zero {c : Char} (h : c ∈ operatorChars) :
    operatorExtent (c :: rest) ≠ 0 := by
  rw [operatorExtent.eq_def]
  split
  · decide
  next heq =>
    obtain ⟨rfl, -⟩ := List.cons.inj heq
    rw [if_pos (List.contains_iff_mem.2 h)]
    decide
  next heq => cases heq

/-- A token is found exactly where one begins, whatever came before. -/
theorem lexeme?_isSome_iff {cs : List Char} :
    (lexeme? operand cs).isSome = true ↔ Begins cs := by
  rw [lexeme?_isSome_iff_extent]
  constructor
  · rintro ⟨kind, h⟩
    exact begins_of_extent h
  · intro h
    cases h with
    | @blank c rest hc =>
      refine ⟨.whitespace, ?_⟩
      rw [extent, blankExtent, List.takeWhile_cons, if_pos hc]
      exact Nat.succ_ne_zero _
    | @digit c rest hc =>
      have hminus : c ≠ '-' := by
        rintro rfl
        exact absurd hc (by decide +kernel)
      exact ⟨.constant, constantExtent_ne_zero hminus (mantissaExtent_of_digit hc)⟩
    | letter hc => exact ⟨.symbol, symbolExtent_ne_zero (by simp [isSymbolStart, hc])⟩
    | mark hc =>
      have hall : ∀ c ∈ ['_', '$'], isSymbolStart c = true :=
        List.all_iff_forall_prop.1 (by decide)
      exact ⟨.symbol, symbolExtent_ne_zero (hall _ hc)⟩
    | operator hc => exact ⟨.operator, operatorExtent_ne_zero hc⟩
    | point hd =>
      exact ⟨.constant, constantExtent_ne_zero (by decide) (mantissaExtent_of_point hd)⟩

/-! ## What follows a token -/

/-- An extent that ends within the first part of a text is the extent in that part alone. -/
def Local (f : List Char → Nat) : Prop :=
  ∀ us rest, f (us ++ rest) ≤ us.length → f us = f (us ++ rest)

/-- One extent behind another. -/
theorem Local.seq {f g : List Char → Nat} (hf : Local f) (hle : ∀ cs, f cs ≤ cs.length)
    (hg : Local g) : Local fun cs => f cs + g (cs.drop (f cs)) := by
  intro us rest h
  have hfirst : f us = f (us ++ rest) := hf us rest (le_trans (Nat.le_add_right _ _) h)
  simp only [← hfirst, List.drop_append_of_le_length (hle us)] at h ⊢
  rw [hg (us.drop (f us)) rest]
  rw [List.length_drop]
  omega

theorem takeWhile_of_append (us rest : List Char)
    (h : ((us ++ rest).takeWhile p).length ≤ us.length) :
    us.takeWhile p = (us ++ rest).takeWhile p := by
  rw [List.takeWhile_append] at h ⊢
  split_ifs at h ⊢ with hall
  · rw [List.length_append] at h
    have hnil : rest.takeWhile p = [] := List.length_eq_zero_iff.1 (by omega)
    rw [hnil, List.append_nil]
    exact (List.takeWhile_prefix p).eq_of_length hall
  · rfl

theorem local_digitsExtent : Local digitsExtent :=
  fun us rest h => congrArg List.length (takeWhile_of_append us rest h)

/-- A word in front, or what is found without it. -/
theorem Local.word {f : List Char → Nat} (hf : Local f) (word : List Char) {n : Nat}
    (hn : word.length = n) : Local fun cs => if word.isPrefixOf cs then n else f cs := by
  intro us rest h
  by_cases hp : word.isPrefixOf (us ++ rest) = true
  · simp only [hp, if_true] at h ⊢
    have hword := List.prefix_of_prefix_length_le (List.isPrefixOf_iff_prefix.1 hp)
      (List.prefix_append us rest) (hn ▸ h)
    rw [if_pos (List.isPrefixOf_iff_prefix.2 hword)]
  · have hword : ¬ word.isPrefixOf us = true := fun hword => hp (List.isPrefixOf_iff_prefix.2
      ((List.isPrefixOf_iff_prefix.1 hword).trans (List.prefix_append us rest)))
    simp only [hp, hword, if_false, Bool.false_eq_true] at h ⊢
    exact hf us rest h

/-! ### Numerals -/

/-- The extent of a fraction: a point and at least one digit. -/
def fractionExtent : List Char → Nat
  | '.' :: rest => if digitsExtent rest = 0 then 0 else 1 + digitsExtent rest
  | _ => 0

theorem mantissaExtent_eq (cs : List Char) :
    mantissaExtent cs = digitsExtent cs + fractionExtent (cs.drop (digitsExtent cs)) := by
  simp only [mantissaExtent, fractionExtent.eq_def (cs.drop _), beq_iff_eq]
  rcases cs.drop (digitsExtent cs) with _ | ⟨c, rest⟩
  · rfl
  · by_cases hc : c = '.'
    · subst hc
      simp only
      split_ifs
      · rfl
      · exact Nat.add_assoc _ _ _
    · simp [hc]

theorem local_fractionExtent : Local fractionExtent := by
  intro us rest h
  rcases us with _ | ⟨c, tail⟩
  · exact (Nat.le_zero.1 h).symm
  · by_cases hc : c = '.'
    · subst hc
      simp only [List.cons_append, fractionExtent, List.length_cons] at h ⊢
      have hdigits : digitsExtent (tail ++ rest) ≤ tail.length := by
        split_ifs at h <;> omega
      rw [local_digitsExtent tail rest hdigits]
    · simp [fractionExtent, hc]

theorem local_mantissaExtent : Local mantissaExtent := by
  rw [funext mantissaExtent_eq]
  exact local_digitsExtent.seq digitsExtent_le_length local_fractionExtent

theorem local_exponentExtent : Local exponentExtent := by
  intro us rest h
  rcases us with _ | ⟨c, tail⟩
  · exact (Nat.le_zero.1 h).symm
  by_cases hc : c ∈ ['e', 'E']
  · obtain ⟨-, -, -, hletter⟩ := Literal.exponent_letter hc
    rcases tail with _ | ⟨s, tail⟩
    · obtain ⟨sign, digits, rfl, -, he⟩ := exponentExtent_letter hc rest
      rw [List.singleton_append, he, List.length_singleton] at h
      rw [List.singleton_append, he]
      split_ifs at h ⊢
      · simp [exponentExtent, digitsExtent]
      · omega
    · have hsigned := local_digitsExtent tail rest
      have hplain := local_digitsExtent (s :: tail) rest
      simp only [List.cons_append, exponentExtent, hletter, if_true, beq_iff_eq,
        List.length_cons] at h hplain ⊢
      by_cases hs : (s == '+' || s == '-') = true
      · simp only [hs, if_true, List.drop_one, List.tail_cons] at h ⊢
        rw [hsigned (by split_ifs at h <;> omega)]
      · simp only [hs, if_false, Bool.false_eq_true] at h ⊢
        rw [hplain (by split_ifs at h <;> omega)]
  · have hletter : (c == 'e' || c == 'E') = false := by simpa using hc
    simp [exponentExtent, hletter]

theorem local_numeralExtent : Local numeralExtent := by
  have hnumeral : ∀ cs, numeralExtent cs = if mantissaExtent cs = 0 then 0 else
      mantissaExtent cs + exponentExtent (cs.drop (mantissaExtent cs)) := by
    intro cs
    simp only [numeralExtent, beq_iff_eq]
  intro us rest h
  rw [hnumeral] at h
  have hmantissa : mantissaExtent us = mantissaExtent (us ++ rest) :=
    local_mantissaExtent us rest (by split_ifs at h <;> omega)
  have hseq := local_mantissaExtent.seq mantissaExtent_le_length local_exponentExtent us rest
  rw [hnumeral, hnumeral]
  split_ifs at h with hzero
  · rw [if_pos (hmantissa.trans hzero), if_pos hzero]
  · rw [if_neg (hmantissa.trans_ne hzero), if_neg hzero]
    exact hseq h

theorem local_unsignedExtent : Local unsignedExtent :=
  local_numeralExtent.word "Infinity".toList (by decide)

/-! ### The kinds of token -/

theorem local_constantExtent (operand : Bool) : Local (constantExtent operand) := by
  have hplain : Local fun cs => if "NaN".toList.isPrefixOf cs then 3 else unsignedExtent cs :=
    local_unsignedExtent.word _ (by decide)
  cases operand with
  | false => exact hplain
  | true =>
    intro us rest h
    rcases us with _ | ⟨c, tail⟩
    · exact (Nat.le_zero.1 h).symm
    by_cases hc : c = '-'
    · subst hc
      have hminus : ∀ cs, constantExtent true ('-' :: cs) =
          if unsignedExtent cs = 0 then 0 else 1 + unsignedExtent cs := by
        intro cs
        have hnan : "NaN".toList.isPrefixOf ('-' :: cs) = false := rfl
        simp only [constantExtent, hnan, Bool.false_eq_true, if_false, beq_iff_eq]
      rw [List.cons_append, hminus, List.length_cons] at h
      rw [List.cons_append, hminus, hminus,
        local_unsignedExtent tail rest (by split_ifs at h <;> omega)]
    · have happend := hplain (c :: tail) rest
      rw [List.cons_append, constantExtent_cons hc] at h ⊢
      rw [constantExtent_cons hc]
      exact happend h

theorem local_commentExtent : Local commentExtent := by
  intro us rest h
  rcases us with _ | ⟨a, _ | ⟨b, tail⟩⟩
  · exact (Nat.le_zero.1 h).symm
  · have hnone : commentExtent (a :: rest) = 0 := by
      rw [List.singleton_append, commentExtent.eq_def, List.length_singleton] at h
      rw [commentExtent.eq_def]
      split at h
      · omega
      · rfl
    rw [List.singleton_append, hnone, commentExtent]
    exact fun _ he => List.cons_ne_nil _ _ (List.cons.inj he).2.symm
  · by_cases hsigns : a = '-' ∧ b = '-'
    · obtain ⟨rfl, rfl⟩ := hsigns
      simp only [List.cons_append, commentExtent, List.length_cons] at h ⊢
      rw [takeWhile_of_append tail rest (by omega)]
    · have hnone : ∀ tail, commentExtent (a :: b :: tail) = 0 := by
        intro tail
        rw [commentExtent]
        exact fun _ he => hsigns ⟨(List.cons.inj he).1, (List.cons.inj (List.cons.inj he).2).1⟩
      rw [List.cons_append, List.cons_append, hnone, hnone]

theorem local_operatorExtent : Local operatorExtent := by
  intro us rest h
  rcases us with _ | ⟨a, _ | ⟨b, tail⟩⟩
  · exact (Nat.le_zero.1 h).symm
  · have hsingle : ∀ rest, (∀ tail, a = '-' → rest ≠ '>' :: tail) →
        operatorExtent (a :: rest) = if operatorChars.contains a then 1 else 0 := by
      intro rest hrest
      rw [operatorExtent]
      exact hrest
    have hnil : ∀ tail, a = '-' → [] ≠ '>' :: tail := fun _ _ => (List.cons_ne_nil _ _).symm
    rw [List.singleton_append, hsingle [] hnil, hsingle rest]
    rintro tail rfl rfl
    change 2 ≤ 1 at h
    omega
  · by_cases harrow : a = '-' ∧ b = '>'
    · obtain ⟨rfl, rfl⟩ := harrow
      rfl
    · have hone : ∀ tail, operatorExtent (a :: b :: tail) =
          if operatorChars.contains a then 1 else 0 := by
        intro tail
        rw [operatorExtent]
        exact fun _ ha hb => harrow ⟨ha, (List.cons.inj hb).1⟩
      rw [List.cons_append, List.cons_append, hone, hone]

theorem local_symbolExtent : Local symbolExtent := by
  intro us rest h
  rcases us with _ | ⟨c, tail⟩
  · exact (Nat.le_zero.1 h).symm
  · simp only [List.cons_append, symbolExtent, List.length_cons] at h ⊢
    split_ifs at h ⊢
    · rw [takeWhile_of_append tail rest (by omega)]
    · rfl

/-- A token never looks behind its own end. -/
theorem local_extent (operand : Bool) (kind : TokenKind) :
    Local fun cs => extent operand cs kind := by
  cases kind with
  | comment => exact local_commentExtent
  | whitespace => exact fun us rest h => congrArg List.length (takeWhile_of_append us rest h)
  | constant => exact local_constantExtent operand
  | operator => exact local_operatorExtent
  | symbol => exact local_symbolExtent

/-! ## Scans -/

/-- A token at the front of a text is at the front of every part of it that holds the token. -/
theorem lexeme?_of_append {kind : TokenKind} {n : Nat}
    (h : lexeme? operand (us ++ rest) = some (kind, n)) (hn : n ≤ us.length) :
    lexeme? operand us = some (kind, n) := by
  obtain ⟨k, hfind, hk⟩ := Option.map_eq_some_iff.1 h
  obtain ⟨rfl, rfl⟩ := Prod.mk.inj hk
  obtain ⟨hne, before, after, horder, hbefore⟩ := List.find?_eq_some_iff_append.1 hfind
  have hextent : extent operand us k = extent operand (us ++ rest) k :=
    local_extent operand k us rest hn
  -- the kinds that are tried before have no extent in the text, and so none in its part
  have hfind' : kindOrder.find? (fun kind => extent operand us kind != 0) = some k := by
    refine List.find?_eq_some_iff_append.2 ⟨hextent ▸ hne, before, after, horder, ?_⟩
    intro kind hkind
    have hzero : extent operand (us ++ rest) kind = 0 := by simpa using hbefore kind hkind
    have hzero' : extent operand us kind = 0 :=
      (local_extent operand kind us rest (hzero.le.trans (Nat.zero_le _))).trans hzero
    simp [hzero']
  rw [lexeme?, hfind', ← hextent]
  rfl

/-- What a scan has passed is cut into the same tokens if it stands alone. -/
theorem scan_of_append (operand : Bool) (position : Nat) (cs : List Char) :
    ∀ us, cs = us ++ (scan operand position cs).2 →
      scan operand position us = ((scan operand position cs).1, []) := by
  -- the recursion of the scan of the whole text
  induction operand, position, cs using scan.induct with
  | case1 operand position cs hnone =>
    intro us h
    rw [scan_of_lexeme?_eq_none hnone] at h ⊢
    obtain rfl : us = [] := List.append_left_eq_self.1 h.symm
    exact scan_nil position
  | case2 operand position cs kind n hsome t ts left hscan ih =>
    intro us h
    rw [scan_of_lexeme? position hsome] at h ⊢
    obtain ⟨vs, hvs, -⟩ := tiles_scan (t.operandExpectedAfter operand) (position + n) (cs.drop n)
    have hus : us = cs.take n ++ vs := by
      refine List.append_cancel_right (h.symm.trans ?_)
      rw [List.append_assoc, ← hvs, List.take_append_drop]
    have hn : (cs.take n).length = n :=
      List.length_take_of_le ((extent_of_lexeme? hsome).1 ▸ extent_le_length operand cs kind)
    have hlexeme : lexeme? operand us = some (kind, n) := by
      refine lexeme?_of_append (h ▸ hsome) ?_
      rw [hus, List.length_append, hn]
      exact Nat.le_add_right n _
    have htake : us.take n = cs.take n := by rw [hus, List.take_left' hn]
    have hdrop : us.drop n = vs := by rw [hus, List.drop_left' hn]
    rw [scan_of_lexeme? position hlexeme, htake, hdrop, ih vs hvs]

end Lexer

/-- The number of characters in the images of tokens. -/
def Token.width (ts : List Token) : Nat :=
  (ts.map fun t => t.image.length).sum

theorem Token.width_cons (t : Token) (ts : List Token) :
    width (t :: ts) = t.image.length + width ts :=
  List.sum_cons

namespace Lexer

/-- What a scan does at a place that it has reached: it goes on from there, and the tokens that it
has cut off tell whether an operand is expected. -/
theorem scan_drop_width {operand : Bool} {position : Nat} {cs : List Char}
    {before after : List Token} (h : (scan operand position cs).1 = before ++ after) :
    scan (before.foldl Token.operandExpectedAfter operand) (position + Token.width before)
        (cs.drop (Token.width before)) = (after, (scan operand position cs).2) := by
  induction before generalizing operand position cs with
  | nil => exact Prod.ext h rfl
  | cons t before ih =>
    cases hlexeme : lexeme? operand cs with
    | none =>
      rw [scan_of_lexeme?_eq_none hlexeme] at h
      cases h
    | some token =>
      obtain ⟨kind, n⟩ := token
      have hn : (cs.take n).length = n :=
        List.length_take_of_le ((extent_of_lexeme? hlexeme).1 ▸ extent_le_length operand cs kind)
      rw [scan_of_lexeme? position hlexeme] at h ⊢
      obtain ⟨rfl, htail⟩ := List.cons.inj h
      rw [Token.width_cons, String.length_ofList, hn, ← List.drop_drop, ← Nat.add_assoc]
      exact ih htail

/-- At a place that it has reached a scan finds a token exactly where one begins. -/
theorem ne_nil_iff_begins {operand : Bool} {position : Nat} {cs : List Char}
    {before after : List Token} (h : (scan operand position cs).1 = before ++ after) :
    after ≠ [] ↔ Begins (cs.drop (Token.width before)) := by
  have hscan := scan_drop_width h
  have hbegins : (lexeme? (before.foldl Token.operandExpectedAfter operand)
      (cs.drop (Token.width before))).isSome = true ↔ Begins (cs.drop (Token.width before)) :=
    lexeme?_isSome_iff
  rw [← hbegins]
  cases hlexeme : lexeme? (before.foldl Token.operandExpectedAfter operand)
      (cs.drop (Token.width before)) with
  | none =>
    rw [scan_of_lexeme?_eq_none hlexeme] at hscan
    exact iff_of_false (fun hne => hne (congrArg Prod.fst hscan).symm) (by decide)
  | some token =>
    rw [scan_of_lexeme? _ hlexeme] at hscan
    exact iff_of_true (fun hnil => nomatch (congrArg Prod.fst hscan).trans hnil) rfl

end Lexer

/-! ## The tokens of a text, and where there are none -/

namespace Token

/-- Tokens that make up a text stand at the sums of the widths in front of them. -/
theorem Tiles.position_eq {position : Nat} {cs : List Char} {before after : List Token} {t : Token}
    (h : Tiles position (before ++ t :: after) cs) :
    t.image ≠ "" ∧ t.position = (position + width before : ℕ) := by
  induction before generalizing position cs with
  | nil =>
    cases h with
    | @cons _ kind image _ _ hne _ =>
      exact ⟨fun hempty => hne (String.ofList_eq_empty_iff.1 hempty), rfl⟩
  | cons u before ih =>
    cases h with
    | @cons _ kind image _ _ _ htail =>
      obtain ⟨hne, hposition⟩ := ih htail
      refine ⟨hne, ?_⟩
      rw [hposition, width_cons, String.length_ofList, Nat.add_assoc]

theorem Tiles.length_eq {position : Nat} {cs : List Char} {ts : List Token}
    (h : Tiles position ts cs) : cs.length = width ts := by
  induction h with
  | nil => rfl
  | cons _ _ ih => rw [List.length_append, width_cons, String.length_ofList, ih]

/-- The tokens that are cut off a text in front of the first place where none begins. -/
def consumed (source : String) : List Token :=
  (Lexer.scan true 0 source.toList).1

/-- What is left of a text without tokens begins behind those that were cut off. -/
theorem exists_left_of_read? {source : String} {e : ReadError} (h : read? source = .error e) :
    ∃ us c rest, source.toList = us ++ c :: rest ∧ Tiles 0 (consumed source) us ∧
      e = .noToken source us.length ∧ (Lexer.scan true 0 source.toList).2 = c :: rest := by
  obtain ⟨us, hus, htiles⟩ := Lexer.tiles_scan true 0 source.toList
  obtain ⟨left, hleft⟩ : ∃ left, (Lexer.scan true 0 source.toList).2 = left := ⟨_, rfl⟩
  rw [hleft] at hus
  cases left with
  | nil => exact nomatch (read?_eq_ok_iff_scan.2 (Prod.ext rfl hleft)).symm.trans h
  | cons c rest =>
    have hposition : source.length - (c :: rest).length = us.length := by
      rw [← String.length_toList, hus, List.length_append, Nat.add_sub_cancel]
    simp only [read?, ofSource?, hleft, List.isEmpty_cons, Bool.false_eq_true, if_false,
      Except.mapError, hposition] at h
    exact ⟨us, c, rest, hus, htiles, (Except.error.inj h).symm, hleft⟩

/-- The diagnostic shows what is left. -/
theorem cause_noToken (ink : Ink) {source : String} {position : Nat}
    (h : position ≤ source.length) :
    (Diagnostic.noToken ink source position).cause =
      .noToken position (String.ofList (source.toList.drop position)) := by
  have hle : min source.length position = position := Nat.min_eq_right h
  simp only [Diagnostic.noToken, Diagnostic.ofParts, Text.startingAt, Text.boundary_natCast, hle]

/-- **Cutting loses nothing and stops only where no token begins.** The tokens that are cut off a
text have images that are not empty, and each of them stands at the sum of the widths in front of
it. At every place that is reached another token follows exactly if one begins there. If the tokens
of the text are returned, their images make up the text. Otherwise the error names the text and a
position in it where a character stands that begins no token; the tokens cut off so far make up what
is in front of it and are the tokens of that part alone, and the diagnostic shows what is left. -/
theorem read?_tiles_up_to_stop (source : String) :
    (∀ (before : List Token) (t : Token) (after : List Token),
      consumed source = before ++ t :: after →
      t.image ≠ "" ∧ t.position = (width before : Int)) ∧
    (∀ before after, consumed source = before ++ after →
      (after ≠ [] ↔ Lexer.Begins (source.toList.drop (width before)))) ∧
    (∀ tokens, read? source = .ok tokens → tokens = consumed source ∧ sourceOf tokens = source) ∧
    ∀ e, read? source = .error e → ∃ position c rest, e = .noToken source position ∧
      source.toList.drop position = c :: rest ∧ ¬ Lexer.Begins (c :: rest) ∧
      sourceOf (consumed source) = String.ofList (source.toList.take position) ∧
      read? (String.ofList (source.toList.take position)) = .ok (consumed source) ∧
      ∀ ink, ∃ d, Failure.ofReadError ink e = .diagnostic d ∧
        d.cause = .noToken position (String.ofList (c :: rest)) := by
  refine ⟨?_, fun before after h => Lexer.ne_nil_iff_begins h, ?_, ?_⟩
  · intro before t after h
    obtain ⟨us, -, htiles⟩ : ∃ us, _ ∧ Tiles 0 (consumed source) us :=
      Lexer.tiles_scan true 0 source.toList
    rw [h] at htiles
    obtain ⟨hne, hposition⟩ := htiles.position_eq
    rw [Nat.zero_add] at hposition
    exact ⟨hne, hposition⟩
  · intro tokens h
    obtain ⟨us, hus, htiles⟩ := Lexer.tiles_scan true 0 source.toList
    rw [consumed]
    rw [read?_eq_ok_iff_scan] at h
    rw [h] at hus htiles ⊢
    refine ⟨rfl, ?_⟩
    rw [htiles.sourceOf_eq, ← String.toList_inj, String.toList_ofList, hus, List.append_nil]
  · intro e h
    obtain ⟨us, c, rest, hus, htiles, rfl, hleft⟩ := exists_left_of_read? h
    have hdrop : source.toList.drop us.length = c :: rest := by rw [hus, List.drop_left]
    have htake : source.toList.take us.length = us := by rw [hus, List.take_left]
    have hle : us.length ≤ source.length := by
      rw [← String.length_toList, hus, List.length_append]
      exact Nat.le_add_right _ _
    refine ⟨us.length, c, rest, rfl, hdrop, ?_, ?_, ?_, fun ink => ⟨_, rfl, ?_⟩⟩
    · have hnone := Lexer.ne_nil_iff_begins (List.append_nil (consumed source)).symm
      rw [← htiles.length_eq, hdrop] at hnone
      exact fun hbegins => hnone.2 hbegins rfl
    · rw [htake, htiles.sourceOf_eq]
    · rw [htake, read?_eq_ok_iff_scan, String.toList_ofList]
      exact Lexer.scan_of_append true 0 source.toList us (hleft.symm ▸ hus)
    · rw [cause_noToken ink hle, hdrop]

/-- Behind the sign of an exponent without digits and a blank stands a point that is in front of no
digit. The second number has no digits in front of its point. -/
theorem read?_stops_at_lone_point :
    read? "1.5.5e+ .x" = .error (.noToken "1.5.5e+ .x" 8) ∧
      ∃ position c rest, ReadError.noToken "1.5.5e+ .x" 8 = .noToken "1.5.5e+ .x" position ∧
        "1.5.5e+ .x".toList.drop position = c :: rest ∧ ¬ Lexer.Begins (c :: rest) ∧
        sourceOf (consumed "1.5.5e+ .x") =
          String.ofList ("1.5.5e+ .x".toList.take position) ∧
        read? (String.ofList ("1.5.5e+ .x".toList.take position)) =
          .ok (consumed "1.5.5e+ .x") := by
  have hread : read? "1.5.5e+ .x" = .error (.noToken "1.5.5e+ .x" 8) := by decide +kernel
  obtain ⟨-, -, -, hstops⟩ := read?_tiles_up_to_stop "1.5.5e+ .x"
  obtain ⟨position, c, rest, he, hdrop, hbegins, hsource, halone, -⟩ := hstops _ hread
  exact ⟨hread, position, c, rest, he, hdrop, hbegins, hsource, halone⟩

end Token

end TermCalc
