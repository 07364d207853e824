import TermCalc.Proofs.Number.Numeral
import TermCalc.Proofs.Number.Shortest

/-!
# The number that a numeral denotes

A numeral in ASCII is read in two steps: its digits are counted up to a decimal numeral, and that is
rounded to a pattern. The denotation of a numeral is put together from those of its parts.

## Main definitions

* `Literal.Denotes cs bits`: `cs` is an unsigned numeral in ASCII that reads as the pattern `bits`

## Main results

* `Text.digitsValue_decimalDigits`: the digits of a natural number denote it
* `Literal.Denotes.whole`, `Literal.Denotes.fraction`: numerals without and with a point
* `Literal.Denotes.number?_eq`: the number that such a numeral denotes, with a minus sign or without
-/

namespace TermCalc

namespace Text

/-! ## Digits and their worth -/

/-- The ASCII digits, by their worth. -/
theorem exists_digitChar_of_isDigit {c : Char} (h : c.isDigit = true) :
    ∃ d < 10, c = digitChar d := by
  rw [Char.isDigit, Bool.and_eq_true_iff, decide_eq_true_iff, decide_eq_true_iff, ge_iff_le,
    UInt32.le_iff_toNat_le, UInt32.le_iff_toNat_le] at h
  have hlow : 48 ≤ c.toNat := h.1
  have hhigh : c.toNat ≤ 57 := h.2
  refine ⟨c.toNat - 48, by omega, ?_⟩
  rw [digitChar, Nat.add_sub_cancel' hlow, Char.ofNat_toNat]

/-- An ASCII digit is a digit. -/
theorem isDigit_of_ascii {c : Char} (h : c.isDigit = true) : isDigit c = true := by
  have hall : ∀ d < 10, isDigit (digitChar d) = true := by decide +kernel
  obtain ⟨d, hd, rfl⟩ := exists_digitChar_of_isDigit h
  exact hall d hd

theorem digitsValue_append_singleton (ds : List Char) (c : Char) :
    digitsValue (ds ++ [c]) = 10 * digitsValue ds + (digitValue? c).getD 0 := by
  rw [digitsValue, List.foldl_append]
  rfl

/-- The digits ahead of others count as much more as the others have places. -/
theorem digitsValue_append (ds es : List Char) :
    digitsValue (ds ++ es) = digitsValue ds * 10 ^ es.length + digitsValue es := by
  induction es using List.reverseRecOn with
  | nil => simp [digitsValue]
  | append_singleton es c ih =>
    rw [← List.append_assoc, digitsValue_append_singleton, ih, digitsValue_append_singleton,
      List.length_append, List.length_singleton, Nat.pow_succ', Nat.mul_add, Nat.add_assoc,
      Nat.mul_left_comm]

theorem digitsValue_replicate_zero (k : Nat) : digitsValue (List.replicate k '0') = 0 := by
  have hzero : (digitValue? '0').getD 0 = 0 := by decide
  induction k with
  | zero => rfl
  | succ k ih => rw [List.replicate_succ', digitsValue_append_singleton, ih, hzero]

/-- The digits of a natural number denote it. -/
theorem digitsValue_decimalDigits (n : Nat) : digitsValue (decimalDigits n) = n := by
  have hdigit : ∀ d < 10, (digitValue? (Nat.digitChar d)).getD 0 = d := by decide +kernel
  induction n using Nat.strongRecOn with
  | ind n ih =>
    by_cases hn : n < 10
    · rw [decimalDigits, Nat.toDigits_of_lt_base hn]
      exact (Nat.zero_add _).trans (hdigit n hn)
    · have hrec : digitsValue (Nat.toDigits 10 (n / 10)) = n / 10 := ih (n / 10) (by omega)
      rw [decimalDigits, Nat.toDigits_of_base_le (by decide) (by omega),
        digitsValue_append_singleton, hrec, hdigit _ (Nat.mod_lt n (by decide))]
      omega

theorem isDigit_of_mem_decimalDigits {n : Nat} : ∀ c ∈ decimalDigits n, c.isDigit = true :=
  fun _ hc => Nat.isDigit_of_mem_toDigits (by decide) (by decide) hc

theorem decimalDigits_ne_nil (n : Nat) : decimalDigits n ≠ [] :=
  Nat.toDigits_ne_nil

end Text

namespace Literal

open Text (digitsValue decimalDigits)

/-! ## The parts of a numeral -/

/-- The characters `cs` are an unsigned numeral in ASCII that reads as the pattern `bits`. -/
structure Denotes (cs : List Char) (bits : Nat) : Prop where
  numeral : Numeral Char.isDigit cs
  reads : ∃ d, decimal? cs = some d ∧ d.bits = bits

section Parts

variable {digits ds exponent : List Char} {e : Int}

theorem Exponent.exponent?_eq {sign : List Char} {negative : Bool}
    (hs : (sign, negative) ∈ [(['+'], false), (['-'], true)])
    (hne : ds ≠ []) (hd : ∀ c ∈ ds, c.isDigit = true) :
    Exponent Char.isDigit ('e' :: (sign ++ ds)) ∧
      exponent? ('e' :: (sign ++ ds)) = some (signed negative ds) := by
  have hall : (ds.isEmpty || !ds.all Char.isDigit) = false := by
    rw [List.isEmpty_eq_false_iff.2 hne, List.all_eq_true.2 hd]
    rfl
  simp only [List.mem_cons, Prod.mk.injEq, List.not_mem_nil, or_false] at hs
  rcases hs with ⟨rfl, rfl⟩ | ⟨rfl, rfl⟩
  · refine ⟨.power (by decide) (by decide) hne hd, ?_⟩
    simp [exponent?, splitSign, hall]
  · refine ⟨.power (by decide) (by decide) hne hd, ?_⟩
    simp [exponent?, splitSign, hall]

/-- A numeral without a point. -/
theorem Denotes.whole (hne : digits ≠ []) (hd : ∀ c ∈ digits, c.isDigit = true)
    (hexp : Exponent Char.isDigit exponent) (he : exponent? exponent = some e) :
    Denotes (digits ++ exponent) (Decimal.bits ⟨digitsValue digits, e⟩) := by
  refine ⟨.parts hd .none hexp (.inl hne), ⟨digitsValue digits, e⟩, ?_, rfl⟩
  have hsplit := splitDigits_append hd fun c hc => (hexp.head_not_digit c hc).1
  have hnonempty : digits.isEmpty = false := List.isEmpty_eq_false_iff.2 hne
  rw [decimal?, hsplit]
  dsimp only
  split
  next => exact absurd rfl (hexp.head_not_digit '.' rfl).2
  next => simp [hnonempty, he]

/-- A numeral with a point and digits after it. -/
theorem Denotes.fraction (hd : ∀ c ∈ digits, c.isDigit = true) (hne : ds ≠ [])
    (hds : ∀ c ∈ ds, c.isDigit = true) (hexp : Exponent Char.isDigit exponent)
    (he : exponent? exponent = some e) :
    Denotes (digits ++ ('.' :: ds ++ exponent))
      (Decimal.bits ⟨digitsValue (digits ++ ds), e - ds.length⟩) := by
  refine ⟨.parts hd (.point hne hds) hexp (.inr (List.cons_ne_nil _ _)),
    ⟨digitsValue (digits ++ ds), e - ds.length⟩, ?_, rfl⟩
  have hpoint : ∀ c ∈ ('.' :: ds ++ exponent).head?, c.isDigit = false := by
    intro c hc
    obtain rfl := Option.some.inj hc
    decide
  have hfraction := splitDigits_append hds fun c hc => (hexp.head_not_digit c hc).1
  rw [decimal?, splitDigits_append hd hpoint]
  simp [hfraction, hne, he]

end Parts

/-! ## The number -/

variable {cs : List Char} {bits : Nat}

/-- A numeral is no name of a special number. -/
theorem Numeral.lower_not_mem (h : Numeral Char.isDigit cs) :
    cs.map Char.toLower ∉ infinityNames ∧ cs.map Char.toLower ≠ nanName := by
  have hletter : ∀ d < 10, (Text.digitChar d).toLower ≠ 'i' ∧ (Text.digitChar d).toLower ≠ 'n' := by
    decide +kernel
  have hhead : (cs.map Char.toLower).head? ≠ some 'i' ∧ (cs.map Char.toLower).head? ≠ some 'n' := by
    obtain ⟨c, rest, rfl⟩ := List.exists_cons_of_ne_nil h.ne_nil
    simp only [List.map_cons, List.head?_cons, ne_eq, Option.some.injEq]
    rcases h.head c rfl with hc | rfl
    · obtain ⟨d, hd, rfl⟩ := Text.exists_digitChar_of_isDigit hc
      exact hletter d hd
    · decide
  constructor
  · intro hmem
    have hnames : ∀ name ∈ infinityNames, name.head? = some 'i' := by decide
    exact hhead.1 (hnames _ hmem)
  · intro hnan
    rw [hnan] at hhead
    exact hhead.2 rfl

theorem Numeral.map_asciiDigit (h : Numeral Char.isDigit cs) : cs.map asciiDigit = cs := by
  have hall : ∀ d < 10, (Text.digitChar d).toNat < 0x80 := by decide +kernel
  refine (List.map_congr_left fun c hc => asciiDigit_of_lt ?_).trans (List.map_id cs)
  rcases h.mem hc with hc | hm
  · obtain ⟨d, hd, rfl⟩ := Text.exists_digitChar_of_isDigit hc
    exact hall d hd
  · exact Nat.lt_succ_of_lt (toNat_lt_of_mem_numeralMarks hm)

/-- The sign of a number, as it is written. -/
def minus (negative : Bool) : List Char :=
  if negative then ['-'] else []

/-- The number that a numeral denotes, with a minus sign in front or without one. -/
theorem Denotes.number?_eq (h : Denotes cs bits) (negative : Bool) :
    number? (String.ofList (minus negative ++ cs)) = some (Binary64.ofMagnitude negative bits) := by
  obtain ⟨hnum, d, hd, hbits⟩ := h
  have hchars : ∀ c ∈ minus negative ++ cs, Text.isDigit c ∨ c ∈ numeralMarks := by
    intro c hc
    rcases List.mem_append.1 hc with hc | hc
    · refine .inr (mem_numeralMarks_of_mem_sign ?_ hc)
      cases negative <;> decide
    · exact (hnum.mem hc).imp_left Text.isDigit_of_ascii
  have hascii : (minus negative ++ cs).map asciiDigit = minus negative ++ cs := by
    have hsign : (minus negative).map asciiDigit = minus negative := by
      cases negative <;> decide +kernel
    rw [List.map_append, hsign, hnum.map_asciiDigit]
  have hsplit : splitSign (minus negative ++ cs) = (negative, cs) := by
    cases negative
    · exact hnum.splitSign_eq
    · rfl
  obtain ⟨hinf, hnan⟩ := hnum.lower_not_mem
  have hinf : infinityNames.contains (cs.map Char.toLower) = false := by simpa using hinf
  have hnan : (cs.map Char.toLower == nanName) = false := beq_false_of_ne hnan
  rw [number?, bare_eq hchars, hascii, Option.bind_eq_bind, Option.bind_some, hsplit]
  simp only [unsigned?, hinf, hnan, hd, Bool.false_eq_true, if_false, Option.map_some,
    Decimal.toFloat, hbits]

end Literal

end TermCalc
