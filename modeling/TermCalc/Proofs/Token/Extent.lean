import TermCalc.Proofs.Number.Denotation
import TermCalc.Proofs.Token.Lexemes

/-!
# The token at the front of a text

Which token comes first when a text begins with a numeral, a name, a mark, a blank or a comment.
Numerals and names extend as far as they can, so something has to follow that ends them.

## Main definitions

* `Lexer.Boundary rest`: the text `rest` ends a numeral or a name in front of it
* `Lexer.SymbolName cs`: the characters of a symbol, which does not begin like a special number

## Main results

* `Lexer.lexeme?_unsigned`, `Lexer.lexeme?_negative`, `Lexer.lexeme?_nan`: constants
* `Lexer.lexeme?_symbol`: symbols
* `Lexer.lexeme?_mark`, `Lexer.lexeme?_minus`: marks
* `Lexer.lexeme?_blank`, `Lexer.lexeme?_comment`: what the grammar does not see
-/

namespace TermCalc.Lexer

open Literal (Numeral Fraction Exponent)

variable {operand : Bool} {cs ds rest : List Char} {c : Char}

/-! ## The kind of the token -/

theorem lexeme?_eq_comment (h : commentExtent cs ≠ 0) :
    lexeme? operand cs = some (.comment, commentExtent cs) := by
  simp [lexeme?, kindOrder, extent, h]

theorem lexeme?_eq_blank (hc : commentExtent cs = 0) (h : blankExtent cs ≠ 0) :
    lexeme? operand cs = some (.whitespace, blankExtent cs) := by
  simp [lexeme?, kindOrder, extent, hc, h]

theorem lexeme?_eq_constant (hc : commentExtent cs = 0) (hb : blankExtent cs = 0)
    (h : constantExtent operand cs ≠ 0) :
    lexeme? operand cs = some (.constant, constantExtent operand cs) := by
  simp [lexeme?, kindOrder, extent, hc, hb, h]

theorem lexeme?_eq_operator (hc : commentExtent cs = 0) (hb : blankExtent cs = 0)
    (hk : constantExtent operand cs = 0) (h : operatorExtent cs ≠ 0) :
    lexeme? operand cs = some (.operator, operatorExtent cs) := by
  simp [lexeme?, kindOrder, extent, hc, hb, hk, h]

theorem lexeme?_eq_symbol (hc : commentExtent cs = 0) (hb : blankExtent cs = 0)
    (hk : constantExtent operand cs = 0) (ho : operatorExtent cs = 0) (h : symbolExtent cs ≠ 0) :
    lexeme? operand cs = some (.symbol, symbolExtent cs) := by
  simp [lexeme?, kindOrder, extent, hc, hb, hk, ho, h]

/-! ## The first character -/

theorem commentExtent_cons (h : c ≠ '-') : commentExtent (c :: rest) = 0 := by
  rw [commentExtent]
  intro _ he
  exact h (List.cons.inj he).1

theorem commentExtent_minus (h : ∀ c ∈ rest.head?, c ≠ '-') : commentExtent ('-' :: rest) = 0 := by
  rw [commentExtent]
  intro tail he
  rw [(List.cons.inj he).2] at h
  exact h '-' rfl rfl

theorem blankExtent_cons (h : Text.isBlank c = false) : blankExtent (c :: rest) = 0 := by
  rw [blankExtent, List.takeWhile_cons, h]
  rfl

theorem numeralExtent_cons (hd : Text.isDigit c = false) (hp : c ≠ '.') :
    numeralExtent (c :: rest) = 0 := by
  have hdigits : digitsExtent (c :: rest) = 0 := by
    rw [digitsExtent, List.takeWhile_cons, hd]
    rfl
  have hmantissa : mantissaExtent (c :: rest) = 0 := by
    simp only [mantissaExtent, hdigits, List.drop_zero]
    split
    next he => exact absurd (List.cons.inj he).1 hp
    next => rfl
  rw [numeralExtent, hmantissa]
  rfl

theorem unsignedExtent_cons (hd : Text.isDigit c = false) (hp : c ≠ '.')
    (hi : ¬ "Infinity".toList <+: c :: rest) : unsignedExtent (c :: rest) = 0 := by
  have hinf : ¬ "Infinity".toList.isPrefixOf (c :: rest) = true :=
    fun h => hi (List.isPrefixOf_iff_prefix.1 h)
  rw [unsignedExtent, if_neg hinf, numeralExtent_cons hd hp]

/-- A word that begins with another character is no prefix. -/
theorem not_prefix_cons {a : Char} {word : List Char} (h : a ≠ c) : ¬ a :: word <+: c :: rest :=
  fun hp => h (List.cons_prefix_cons.1 hp).1

/-- The extent of a constant that begins with no minus sign. -/
theorem constantExtent_cons (hm : c ≠ '-') : constantExtent operand (c :: rest) =
    if "NaN".toList.isPrefixOf (c :: rest) then 3 else unsignedExtent (c :: rest) := by
  rw [constantExtent]
  exact fun _ _ he => hm (List.cons.inj he).1

theorem constantExtent_cons_eq_zero (hm : c ≠ '-') (hn : ¬ "NaN".toList <+: c :: rest)
    (hu : unsignedExtent (c :: rest) = 0) : constantExtent operand (c :: rest) = 0 := by
  rw [constantExtent_cons hm, if_neg (mt List.isPrefixOf_iff_prefix.1 hn), hu]

/-- No number without a sign begins with a minus sign, a bracket or the first letter of `NaN`. -/
theorem unsignedExtent_mark (h : c ∈ ['-', '(', 'N']) : unsignedExtent (c :: rest) = 0 := by
  have hall : ∀ c ∈ ['-', '(', 'N'], Text.isDigit c = false ∧ c ≠ '.' ∧ 'I' ≠ c :=
    List.all_iff_forall_prop.1 (by decide +kernel)
  obtain ⟨hdigit, hpoint, hletter⟩ := hall c h
  exact unsignedExtent_cons hdigit hpoint (not_prefix_cons hletter)

theorem constantExtent_minus (h : operand = true → unsignedExtent rest = 0) :
    constantExtent operand ('-' :: rest) = 0 := by
  cases operand with
  | true => simp [constantExtent, h rfl]
  | false =>
    have hminus : unsignedExtent ('-' :: rest) = 0 := unsignedExtent_mark (by decide)
    simp [constantExtent, hminus]

/-! ## What follows -/

/-- The text `rest` ends a numeral or a name in front of it: it is empty, or it begins with a
character that neither of them contains. -/
def Boundary (rest : List Char) : Prop :=
  ∀ c ∈ rest.head?, c ∈ [' ', ',', '(', ')']

theorem boundary_nil : Boundary [] :=
  fun _ hc => nomatch hc

theorem boundary_cons (h : c ∈ [' ', ',', '(', ')']) : Boundary (c :: rest) := by
  intro d hd
  obtain rfl := Option.some.inj hd
  exact h

/-- The characters at a boundary occur neither in numerals nor in names. -/
theorem Boundary.head (h : Boundary rest) : ∀ c ∈ rest.head?,
    Text.isDigit c = false ∧ c ≠ '.' ∧ c ∉ ['e', 'E'] ∧ isSymbolPart c = false := by
  have hall : ∀ c ∈ [' ', ',', '(', ')'],
      Text.isDigit c = false ∧ c ≠ '.' ∧ c ∉ ['e', 'E'] ∧ isSymbolPart c = false :=
    List.all_iff_forall_prop.1 (by decide +kernel)
  exact fun c hc => hall c (h c hc)

/-! ## Numerals -/

theorem digitsExtent_append (hd : ∀ c ∈ ds, Text.isDigit c = true)
    (hr : ∀ c ∈ rest.head?, Text.isDigit c = false) : digitsExtent (ds ++ rest) = ds.length := by
  have htake : rest.takeWhile Text.isDigit = [] := by
    cases rest with
    | nil => rfl
    | cons c rest => rw [List.takeWhile_cons, hr c rfl]; rfl
  rw [digitsExtent, List.takeWhile_append_of_pos hd, htake, List.append_nil]

theorem exponentExtent_append {exponent : List Char} (h : Exponent Text.isDigit exponent)
    (hr : Boundary rest) : exponentExtent (exponent ++ rest) = exponent.length := by
  have hrest : ∀ c ∈ rest.head?, Text.isDigit c = false := fun c hc => (hr.head c hc).1
  cases h with
  | none =>
    cases rest with
    | nil => rfl
    | cons c rest =>
      have hletter : (c == 'e' || c == 'E') = false := by
        simpa using (hr.head c rfl).2.2.1
      simp [exponentExtent, hletter]
  | @power letter sign ds he hs hne hd =>
    obtain ⟨-, -, -, hletter⟩ := Literal.exponent_letter he
    have hdigits := digitsExtent_append hd hrest
    have hpos : ds.length ≠ 0 := mt List.length_eq_zero_iff.1 hne
    simp only [List.mem_cons, List.not_mem_nil, or_false] at hs
    rcases hs with rfl | rfl | rfl
    · obtain ⟨d, tail, rfl⟩ := List.exists_cons_of_ne_nil hne
      have hsign : (d == '+' || d == '-') = false := by
        have hall : ∀ s ∈ ['+', '-'], Text.isDigit s = false :=
          List.all_iff_forall_prop.1 (by decide +kernel)
        have hdigit := hd d List.mem_cons_self
        rw [Bool.or_eq_false_iff, beq_eq_false_iff_ne, beq_eq_false_iff_ne]
        constructor
        · rintro rfl
          exact Bool.noConfusion (hdigit.symm.trans (hall '+' (by decide)))
        · rintro rfl
          exact Bool.noConfusion (hdigit.symm.trans (hall '-' (by decide)))
      rw [List.cons_append] at hdigits
      simp only [List.nil_append, List.cons_append, exponentExtent, hletter, hsign, if_true,
        Bool.false_eq_true, if_false, hdigits, beq_iff_eq, hpos]
      simp only [List.length_cons]
      omega
    · simp [exponentExtent, hletter, hdigits, hne]
      omega
    · simp [exponentExtent, hletter, hdigits, hne]
      omega

/-- A numeral extends up to the boundary behind it. -/
theorem numeralExtent_append (h : Numeral Text.isDigit cs) (hr : Boundary rest) :
    numeralExtent (cs ++ rest) = cs.length := by
  obtain @⟨whole, fraction, exponent, hw, hf, he, hne⟩ := h
  have hexponent := exponentExtent_append he hr
  have hhead : ∀ c ∈ (exponent ++ rest).head?, Text.isDigit c = false ∧ c ≠ '.' := by
    have hletter : ∀ c ∈ ['e', 'E'], Text.isDigit c = false ∧ c ≠ '.' :=
      List.all_iff_forall_prop.1 (by decide +kernel)
    intro c hc
    cases he with
    | none => exact ⟨(hr.head c hc).1, (hr.head c hc).2.1⟩
    | power he =>
      obtain rfl := Option.some.inj hc
      exact hletter _ he
  have hmantissa : mantissaExtent (whole ++ fraction ++ (exponent ++ rest)) =
      (whole ++ fraction).length := by
    cases hf with
    | none =>
      have hdigits := digitsExtent_append hw fun c hc => (hhead c hc).1
      rw [List.append_nil]
      simp only [mantissaExtent, hdigits, List.drop_left]
      split
      next heq =>
        rw [heq] at hhead
        exact absurd rfl (hhead '.' rfl).2
      next => rfl
    | @point ds hds hd =>
      have hpoint : ∀ c ∈ ('.' :: (ds ++ (exponent ++ rest))).head?, Text.isDigit c = false := by
        intro c hc
        obtain rfl := Option.some.inj hc
        decide +kernel
      have hwhole := digitsExtent_append hw hpoint
      have hfraction := digitsExtent_append hd fun c hc => (hhead c hc).1
      have hpos : ds.length ≠ 0 := mt List.length_eq_zero_iff.1 hds
      rw [List.append_assoc]
      simp only [List.cons_append, mantissaExtent, hwhole, List.drop_left, hfraction, beq_iff_eq,
        hpos, if_false, List.length_append, List.length_cons]
      omega
  have hpos : ((whole ++ fraction).length == 0) = false := by
    apply beq_false_of_ne
    intro hzero
    obtain ⟨hwnil, hfnil⟩ := List.append_eq_nil_iff.1 (List.length_eq_zero_iff.1 hzero)
    exact hne.elim (fun h => h hwnil) fun h => h hfnil
  rw [← List.append_assoc whole, List.append_assoc, numeralExtent, hmantissa, hpos, List.drop_left,
    hexponent]
  exact List.length_append.symm

/-! ## Constants -/

/-- The word for infinity or a numeral. -/
def Unsigned (cs : List Char) : Prop :=
  cs = "Infinity".toList ∨ Numeral Text.isDigit cs

/-- ASCII digits are digits. -/
theorem unsigned_of_ascii (h : cs = "Infinity".toList ∨ Numeral Char.isDigit cs) : Unsigned cs := by
  refine h.imp id fun h => ?_
  have hid := h.map (f := id) (fun _ => Text.isDigit_of_ascii) fun _ _ => rfl
  rwa [List.map_id] at hid

/-- An unsigned number begins with a digit, a point or the first letter of its word. -/
theorem Unsigned.head (h : Unsigned cs) : ∃ c tail, cs = c :: tail ∧ c ≠ '-' ∧
    Text.isBlank c = false ∧ c ≠ 'N' ∧ (c = 'I' → cs = "Infinity".toList) := by
  rcases h with rfl | h
  · exact ⟨'I', "nfinity".toList, rfl, by decide, by decide, by decide, fun _ => rfl⟩
  · obtain ⟨c, tail, rfl⟩ := List.exists_cons_of_ne_nil h.ne_nil
    have hletter : ∀ c ∈ ['-', 'N', 'I'], Text.isDigit c = false :=
      List.all_iff_forall_prop.1 (by decide +kernel)
    refine ⟨c, tail, rfl, ?_⟩
    rcases h.head c rfl with hd | rfl
    · obtain ⟨d, hv⟩ := Option.isSome_iff_exists.1 hd
      have hne : ∀ b ∈ ['-', 'N', 'I'], c ≠ b := by
        rintro b hb rfl
        exact Bool.noConfusion (hd.symm.trans (hletter c hb))
      exact ⟨hne '-' (by decide), Text.isBlank_of_digitValue?_eq_some hv, hne 'N' (by decide),
        fun hi => absurd hi (hne 'I' (by decide))⟩
    · exact ⟨by decide, by decide, by decide, fun hi => absurd hi (by decide)⟩

theorem Unsigned.extent (h : Unsigned cs) (hr : Boundary rest) :
    unsignedExtent (cs ++ rest) = cs.length := by
  obtain ⟨c, tail, hcs, -, -, -, hi⟩ := h.head
  rcases h with rfl | h
  · rfl
  · have hinf : ¬ "Infinity".toList.isPrefixOf (cs ++ rest) = true := by
      rw [List.isPrefixOf_iff_prefix, hcs]
      intro hp
      have hletter : 'I' = c := (List.cons_prefix_cons.1 hp).1
      rw [hi hletter.symm] at h
      rcases h.head 'I' rfl with hd | hd
      · exact absurd hd (by decide +kernel)
      · exact absurd hd (by decide)
    rw [unsignedExtent, if_neg hinf, numeralExtent_append h hr]

theorem Unsigned.length_ne_zero (h : Unsigned cs) : cs.length ≠ 0 := by
  obtain ⟨c, tail, rfl, -⟩ := h.head
  exact Nat.succ_ne_zero _

/-- An unsigned number is a constant wherever it stands. -/
theorem lexeme?_unsigned (h : Unsigned cs) (hr : Boundary rest) :
    lexeme? operand (cs ++ rest) = some (.constant, cs.length) := by
  obtain ⟨c, tail, hcs, hminus, hblank, hnan, -⟩ := h.head
  have hconstant : constantExtent operand (cs ++ rest) = cs.length := by
    have hextent := h.extent hr
    have hn : ¬ "NaN".toList <+: c :: (tail ++ rest) := not_prefix_cons hnan.symm
    rw [hcs] at hextent ⊢
    rw [List.cons_append, constantExtent_cons hminus, if_neg (mt List.isPrefixOf_iff_prefix.1 hn)]
    exact hextent
  rw [← hconstant]
  apply lexeme?_eq_constant
  · rw [hcs]
    exact commentExtent_cons hminus
  · rw [hcs]
    exact blankExtent_cons hblank
  · rw [hconstant]
    exact h.length_ne_zero

/-- Where an operand is expected the minus sign in front belongs to the constant. -/
theorem lexeme?_negative (h : Unsigned cs) (hr : Boundary rest) :
    lexeme? true ('-' :: cs ++ rest) = some (.constant, ('-' :: cs).length) := by
  obtain ⟨c, tail, hcs, hminus, hblank, hnan, -⟩ := h.head
  have hconstant : constantExtent true ('-' :: (cs ++ rest)) = ('-' :: cs).length := by
    have hn : "NaN".toList.isPrefixOf ('-' :: (cs ++ rest)) = false := rfl
    have hpos : (cs.length == 0) = false := beq_false_of_ne h.length_ne_zero
    simp only [constantExtent, hn, h.extent hr, hpos, Bool.false_eq_true, if_false,
      List.length_cons]
    omega
  rw [List.cons_append, ← hconstant]
  apply lexeme?_eq_constant
  · apply commentExtent_minus
    rw [hcs]
    intro b hb
    obtain rfl := Option.some.inj hb
    exact hminus
  · exact blankExtent_cons (by decide)
  · rw [hconstant]
    exact Nat.succ_ne_zero _

/-- The name of no number is a constant whatever follows. -/
theorem lexeme?_nan : lexeme? operand ("NaN".toList ++ rest) = some (.constant, 3) := by
  have hconstant : constantExtent operand ("NaN".toList ++ rest) = 3 := by
    have hn : "NaN".toList.isPrefixOf ('N' :: 'a' :: 'N' :: rest) = true := rfl
    exact (constantExtent_cons (by decide)).trans (if_pos hn)
  rw [← hconstant]
  apply lexeme?_eq_constant
  · exact commentExtent_cons (by decide)
  · exact blankExtent_cons (by decide)
  · rw [hconstant]
    decide

/-! ## Symbols -/

/-- The characters of a symbol: it begins with a letter, `_` or `$`, and it does not begin with the
name of a special number. -/
structure SymbolName (cs : List Char) : Prop where
  shape : ∃ c tail, cs = c :: tail ∧ isSymbolStart c = true ∧ ∀ d ∈ tail, isSymbolPart d = true
  notNaN : ¬ "NaN".toList <+: cs
  notInfinity : ¬ "Infinity".toList <+: cs

theorem toNat_lt_of_isSymbolStart (h : isSymbolStart c = true) : c.toNat < 0x80 := by
  have hval : c.toNat = c.val.toNat := rfl
  simp only [isSymbolStart, Char.isAlpha, Char.isUpper, Char.isLower, Bool.or_eq_true,
    Bool.and_eq_true, decide_eq_true_eq, beq_iff_eq, ge_iff_le, UInt32.le_iff_toNat_le] at h
  rcases h with ((⟨-, h⟩ | ⟨-, h⟩) | rfl) | rfl
  · exact hval ▸ Nat.lt_of_le_of_lt h (by decide)
  · exact hval ▸ Nat.lt_of_le_of_lt h (by decide)
  · decide
  · decide

/-- What begins a symbol begins nothing else, the names of special numbers apart. -/
theorem symbolStart_foreign (h : isSymbolStart c = true) :
    c ≠ '-' ∧ c ≠ '>' ∧ c ≠ '.' ∧ Text.isBlank c = false ∧ Text.isDigit c = false ∧
      c ∉ operatorChars := by
  have hall : ∀ n < 0x80, isSymbolStart (Char.ofNat n) = true →
      Char.ofNat n ≠ '-' ∧ Char.ofNat n ≠ '>' ∧ Char.ofNat n ≠ '.' ∧
        Text.isBlank (Char.ofNat n) = false ∧ Text.isDigit (Char.ofNat n) = false ∧
        Char.ofNat n ∉ operatorChars := by
    decide +kernel
  have hc := hall c.toNat (toNat_lt_of_isSymbolStart h)
  rw [Char.ofNat_toNat] at hc
  exact hc h

/-- A word of symbol characters in front of a boundary is in front of it as a whole. -/
theorem prefix_of_prefix_append {word : List Char} (hw : word.all isSymbolPart = true)
    (hr : Boundary rest) (h : word <+: cs ++ rest) : word <+: cs := by
  rcases List.prefix_or_prefix_of_prefix h (List.prefix_append cs rest) with hp | ⟨tail, rfl⟩
  · exact hp
  · cases tail with
    | nil => rw [List.append_nil]
    | cons d tail =>
      obtain ⟨more, rfl⟩ := (List.prefix_append_right_inj cs).1 h
      have hd : isSymbolPart d = true := List.all_eq_true.1 hw d (by simp)
      exact Bool.noConfusion (hd.symm.trans (hr.head d rfl).2.2.2)

variable {name : List Char}

theorem SymbolName.unsignedExtent_append (h : SymbolName name) (hr : Boundary rest) :
    unsignedExtent (name ++ rest) = 0 := by
  obtain ⟨⟨c, tail, rfl, hc, -⟩, -, hinf⟩ := h
  obtain ⟨-, -, hpoint, -, hdigit, -⟩ := symbolStart_foreign hc
  apply unsignedExtent_cons hdigit hpoint
  exact fun hp => hinf (prefix_of_prefix_append (by decide) hr hp)

/-- A symbol extends up to the boundary behind it. -/
theorem lexeme?_symbol (h : SymbolName name) (hr : Boundary rest) :
    lexeme? operand (name ++ rest) = some (.symbol, name.length) := by
  have hunsigned := h.unsignedExtent_append hr
  obtain ⟨⟨c, tail, rfl, hc, ht⟩, hnan, -⟩ := h
  obtain ⟨hminus, -, -, hblank, -, hoperator⟩ := symbolStart_foreign hc
  have hextent : symbolExtent (c :: tail ++ rest) = (c :: tail).length := by
    have htake : rest.takeWhile isSymbolPart = [] := by
      cases rest with
      | nil => rfl
      | cons d rest => rw [List.takeWhile_cons, (hr.head d rfl).2.2.2]; rfl
    rw [List.cons_append, symbolExtent, if_pos hc, List.takeWhile_append_of_pos ht, htake,
      List.append_nil, List.length_cons, Nat.add_comm]
  rw [← hextent]
  apply lexeme?_eq_symbol
  · exact commentExtent_cons hminus
  · exact blankExtent_cons hblank
  · apply constantExtent_cons_eq_zero hminus _ hunsigned
    exact fun hp => hnan (prefix_of_prefix_append (by decide) hr hp)
  · simp [operatorExtent, hminus, hoperator]
  · rw [hextent]
    exact Nat.succ_ne_zero _

/-- A token is a symbol only where no constant is found. -/
theorem constantExtent_of_lexeme?_symbol {n : Nat} (h : lexeme? operand cs = some (.symbol, n)) :
    constantExtent operand cs = 0 := by
  by_contra hk
  by_cases hc : commentExtent cs = 0
  · by_cases hb : blankExtent cs = 0
    · exact nomatch h.symm.trans (lexeme?_eq_constant hc hb hk)
    · exact nomatch h.symm.trans (lexeme?_eq_blank hc hb)
  · exact nomatch h.symm.trans (lexeme?_eq_comment hc)

/-- The image of a symbol is a name. -/
theorem symbolName_of_lexeme? {n : Nat} (h : lexeme? operand cs = some (.symbol, n)) :
    SymbolName (cs.take n) := by
  obtain ⟨rfl, hne⟩ := extent_of_lexeme? h
  have hconstant := constantExtent_of_lexeme?_symbol h
  cases cs with
  | nil => exact absurd rfl hne
  | cons c tail =>
    by_cases hc : isSymbolStart c = true
    · have htake : (c :: tail).take (symbolExtent (c :: tail)) =
          c :: tail.takeWhile isSymbolPart := by
        rw [symbolExtent, if_pos hc, Nat.add_comm, List.take_succ_cons,
          ← List.prefix_iff_eq_take.1 (List.takeWhile_prefix _)]
      have hprefix := List.take_prefix (symbolExtent (c :: tail)) (c :: tail)
      rw [constantExtent_cons (symbolStart_foreign hc).1] at hconstant
      constructor
      · exact ⟨c, _, htake, hc, fun d hd => List.mem_takeWhile_imp hd⟩
      · intro hp
        rw [if_pos (List.isPrefixOf_iff_prefix.2 (hp.trans hprefix))] at hconstant
        cases hconstant
      · intro hp
        have hinf := List.isPrefixOf_iff_prefix.2 (hp.trans hprefix)
        split at hconstant
        · cases hconstant
        · rw [unsignedExtent, if_pos hinf] at hconstant
          cases hconstant
    · exact absurd (if_neg hc) hne

/-! ## Marks, blanks and comments -/

/-- A mark other than the minus sign is a token by itself. -/
theorem lexeme?_mark (h : c ∈ ['=', '+', '*', '/', '%', '(', ')', '[', ']', ',']) :
    lexeme? operand (c :: rest) = some (.operator, 1) := by
  have hall : ∀ c ∈ ['=', '+', '*', '/', '%', '(', ')', '[', ']', ','],
      c ≠ '-' ∧ c ≠ '.' ∧ c ≠ 'N' ∧ c ≠ 'I' ∧ Text.isBlank c = false ∧ Text.isDigit c = false ∧
        c ∈ operatorChars :=
    List.all_iff_forall_prop.1 (by decide +kernel)
  obtain ⟨hminus, hpoint, hn, hi, hblank, hdigit, hoperator⟩ := hall c h
  have hextent : operatorExtent (c :: rest) = 1 := by simp [operatorExtent, hminus, hoperator]
  rw [← hextent]
  apply lexeme?_eq_operator
  · exact commentExtent_cons hminus
  · exact blankExtent_cons hblank
  · apply constantExtent_cons_eq_zero hminus (not_prefix_cons hn.symm)
    exact unsignedExtent_cons hdigit hpoint (not_prefix_cons hi.symm)
  · rw [hextent]
    decide

/-- A minus sign is a token by itself if it belongs neither to an arrow nor to a comment and, where
an operand is expected, no number follows it. -/
theorem lexeme?_minus (hhead : ∀ c ∈ rest.head?, c ≠ '-' ∧ c ≠ '>')
    (h : operand = true → unsignedExtent rest = 0) :
    lexeme? operand ('-' :: rest) = some (.operator, 1) := by
  have hextent : operatorExtent ('-' :: rest) = 1 := by
    rw [operatorExtent]
    · rfl
    · intro tail _ he
      rw [he] at hhead
      exact (hhead '>' rfl).2 rfl
  rw [← hextent]
  apply lexeme?_eq_operator
  · exact commentExtent_minus fun c hc => (hhead c hc).1
  · exact blankExtent_cons (by decide)
  · exact constantExtent_minus h
  · rw [hextent]
    decide

/-- A minus sign in front of something that begins neither with a number nor with a sign. -/
theorem lexeme?_minus_cons (hc : c ≠ '-' ∧ c ≠ '>') (h : unsignedExtent (c :: rest) = 0) :
    lexeme? true ('-' :: c :: rest) = some (.operator, 1) := by
  refine lexeme?_minus ?_ fun _ => h
  intro d hd
  obtain rfl := Option.some.inj hd
  exact hc

/-- A minus sign in front of a symbol. -/
theorem SymbolName.lexeme?_minus (h : SymbolName name) (hr : Boundary rest) :
    lexeme? true ('-' :: (name ++ rest)) = some (.operator, 1) := by
  have hunsigned := h.unsignedExtent_append hr
  obtain ⟨c, tail, rfl, hc, -⟩ := h.shape
  obtain ⟨hminus, harrow, -⟩ := symbolStart_foreign hc
  exact lexeme?_minus_cons ⟨hminus, harrow⟩ hunsigned

/-- A single blank. -/
theorem lexeme?_blank (h : ∀ c ∈ rest.head?, Text.isBlank c = false) :
    lexeme? operand (' ' :: rest) = some (.whitespace, 1) := by
  have hextent : blankExtent (' ' :: rest) = 1 := by
    have htake : rest.takeWhile Text.isBlank = [] := by
      cases rest with
      | nil => rfl
      | cons c rest => rw [List.takeWhile_cons, h c rfl]; rfl
    have hspace : Text.isBlank ' ' = true := by decide
    rw [blankExtent, List.takeWhile_cons, hspace, htake]
    rfl
  rw [← hextent]
  apply lexeme?_eq_blank
  · exact commentExtent_cons (by decide)
  · rw [hextent]
    decide

/-- A comment takes up the rest of a text without line breaks. -/
theorem lexeme?_comment (h : '\n' ∉ rest) :
    lexeme? operand ('-' :: '-' :: rest) = some (.comment, ('-' :: '-' :: rest).length) := by
  have hextent : commentExtent ('-' :: '-' :: rest) = ('-' :: '-' :: rest).length := by
    have htake : rest.takeWhile (· != '\n') = rest := by
      apply List.takeWhile_eq_self_iff.2
      intro c hc
      rw [bne_iff_ne]
      rintro rfl
      exact h hc
    rw [commentExtent, htake, List.length_cons, List.length_cons]
    omega
  rw [← hextent]
  apply lexeme?_eq_comment
  rw [hextent]
  exact Nat.succ_ne_zero _

end TermCalc.Lexer
