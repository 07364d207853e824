import TermCalc.Number.Layout
import TermCalc.Proofs.Number.Arithmetic
import TermCalc.Proofs.Number.Denotation
import TermCalc.Proofs.Term.Equivalence

/-!
# Numbers read back what they are shown as

The text of a number as a result is the name of a special number or a numeral, with a minus sign in
front of it or without one, and it denotes the number it has been written for.

## Main definitions

* `NumberText x cs`: the characters `cs` are a text of the number `x`

## Main results

* `Binary64.ofMagnitude_magnitude`: a number is its sign and pattern
* `Layout.denotes_positive`: a numeral reads as the same pattern in every notation
* `numberText_displayNumber`: what a number is shown as is a text of it
-/

namespace TermCalc

open Literal (Denotes Numeral minus)
open Text (decimalDigits digitsValue)

/-! ## Sign and pattern -/

namespace Binary64

open Float.Model

theorem ofBits_toBits (x : Float) : Float.ofBits x.toBits = x := by
  cases x with
  | ofModel m => exact congrArg Float.ofModel (pack_unpack m)

/-- A number is its sign and pattern. -/
theorem ofMagnitude_magnitude (x : Float) : ofMagnitude (isNegative x) (magnitude x) = x := by
  have hlt : x.toBits.toNat < 2 ^ 64 := x.toBits.toNat_lt
  have hword : (if isNegative x then 0x8000000000000000 + magnitude x else magnitude x) =
      x.toBits.toNat := by
    simp only [isNegative, magnitude, decide_eq_true_eq]
    split <;> omega
  rw [ofMagnitude, hword, UInt64.ofNat_toNat, ofBits_toBits]

/-- The pattern of a number is at most that of infinity. -/
theorem magnitude_le {x : Float} (h : x.isNaN = false) : magnitude x ≤ infinity := by
  have h : (UnpackedFloat.unpack Format.binary64 x.toBits.toBitVec).isNaN = false := h
  show x.toBits.toNat % 2 ^ 63 ≤ 0x7FF0000000000000
  have hm : (@UnpackedFloat.unpackMantissa Format.binary64 x.toBits.toBitVec).toNat =
      x.toBits.toNat % 2 ^ 52 := by
    simp [UnpackedFloat.unpackMantissa]
  have he : (@UnpackedFloat.unpackExponent Format.binary64 x.toBits.toBitVec).toNat =
      x.toBits.toNat / 2 ^ 52 % 2 ^ 11 := by
    simp [UnpackedFloat.unpackExponent, Nat.shiftRight_eq_div_pow]
  rw [UnpackedFloat.unpack] at h
  split at h
  next hexp =>
    split at h
    next hmant =>
      rw [hmant] at hm
      have hzero : x.toBits.toNat % 2 ^ 52 = 0 := hm.symm
      omega
    next => cases h
  next hexp =>
    have hne : (@UnpackedFloat.unpackExponent Format.binary64 x.toBits.toBitVec).toNat ≠ 2047 :=
      fun hmax => hexp (BitVec.eq_of_toNat_eq hmax)
    omega

theorem isZero_ofMagnitude_zero (negative : Bool) : IsZero (ofMagnitude negative 0) := by
  cases negative
  · exact ⟨.positive, by with_unfolding_all rfl⟩
  · exact ⟨.negative, by with_unfolding_all rfl⟩

/-- A number whose pattern is zero is one of the two zeros. -/
theorem isZero_of_magnitude {x : Float} (h : magnitude x = 0) : IsZero x := by
  rw [← ofMagnitude_magnitude x, h]
  exact isZero_ofMagnitude_zero _

end Binary64

/-! ## Notations -/

namespace Layout

variable {ds : List Char}

theorem digits_replicate_zero (k : Nat) : ∀ c ∈ List.replicate k '0', c.isDigit = true := by
  intro c hc
  rw [List.eq_of_mem_replicate hc]
  rfl

/-- Zeros between the point and the digits. -/
theorem denotes_small (hne : ds ≠ []) (hd : ∀ c ∈ ds, c.isDigit = true) (k : Nat) :
    Denotes ('0' :: '.' :: List.replicate k '0' ++ ds)
      (Decimal.bits ⟨digitsValue ds, -(k : Int) - ds.length⟩) := by
  have hall : ∀ c ∈ List.replicate k '0' ++ ds, c.isDigit = true := by
    intro c hc
    rcases List.mem_append.1 hc with hc | hc
    · exact digits_replicate_zero k c hc
    · exact hd c hc
  have hvalue : digitsValue (['0'] ++ (List.replicate k '0' ++ ds)) = digitsValue ds := by
    have hzero : digitsValue ['0'] = 0 := by decide
    rw [Text.digitsValue_append, Text.digitsValue_append, Text.digitsValue_replicate_zero, hzero,
      Nat.zero_mul, Nat.zero_mul, Nat.zero_add, Nat.zero_add]
  have hplaces : 0 - ((List.replicate k '0' ++ ds).length : Int) = -(k : Int) - ds.length := by
    rw [List.length_append, List.length_replicate]
    omega
  have hzero : ∀ c ∈ ['0'], c.isDigit = true := List.forall_mem_singleton.2 (by decide)
  have h := Denotes.fraction hzero (List.append_ne_nil_of_right_ne_nil _ hne) hall .none rfl
  rwa [hvalue, hplaces, List.append_nil] at h

/-- Zeros between the digits and where the point would be. -/
theorem denotes_large (hne : ds ≠ []) (hd : ∀ c ∈ ds, c.isDigit = true) (k : Nat) :
    Denotes (ds ++ List.replicate k '0') (Decimal.bits ⟨digitsValue ds, k⟩) := by
  have hall : ∀ c ∈ ds ++ List.replicate k '0', c.isDigit = true := by
    intro c hc
    rcases List.mem_append.1 hc with hc | hc
    · exact hd c hc
    · exact digits_replicate_zero k c hc
  have hvalue : digitsValue (ds ++ List.replicate k '0') = digitsValue ds * 10 ^ k := by
    rw [Text.digitsValue_append, Text.digitsValue_replicate_zero, List.length_replicate,
      Nat.add_zero]
  have h := Denotes.whole (List.append_ne_nil_of_left_ne_nil hne _) hall .none rfl
  rwa [hvalue, Decimal.bits_append_zeros, List.append_nil, Int.zero_add] at h

/-- The point between the digits. -/
theorem denotes_point (hd : ∀ c ∈ ds, c.isDigit = true) {p : Nat} (hp : p < ds.length)
    {exponent : List Char} {e : Int} (hexp : Literal.Exponent Char.isDigit exponent)
    (he : Literal.exponent? exponent = some e) :
    Denotes (ds.take p ++ ('.' :: ds.drop p ++ exponent))
      (Decimal.bits ⟨digitsValue ds, e + p - ds.length⟩) := by
  have hne : ds.drop p ≠ [] := fun h => Nat.not_le.2 hp (List.drop_eq_nil_iff.1 h)
  have hplaces : e - ((ds.drop p).length : Int) = e + p - ds.length := by
    rw [List.length_drop]
    omega
  have htake : ∀ c ∈ ds.take p, c.isDigit = true := fun c hc => hd c (List.mem_of_mem_take hc)
  have hdrop : ∀ c ∈ ds.drop p, c.isDigit = true := fun c hc => hd c (List.mem_of_mem_drop hc)
  have h := Denotes.fraction htake hne hdrop hexp he
  rwa [List.take_append_drop, hplaces] at h

/-- Digits take up a width of one anyway. -/
theorem padded_one (n : Nat) : padded 1 n = decimalDigits n := by
  have hlength : 0 < (decimalDigits n).length := Nat.length_toDigits_pos
  have hnone : 1 - (decimalDigits n).length = 0 := by omega
  rw [padded, hnone]
  rfl

/-- The exponent of a result: its letter, its sign and its digits without zeros in front. -/
theorem exponent_result (point : Int) :
    Literal.Exponent Char.isDigit
        ('e' :: (if point > 0 then '+' else '-') ::
          padded Layout.result.exponentWidth (point - 1).natAbs) ∧
      Literal.exponent? ('e' :: (if point > 0 then '+' else '-') ::
        padded Layout.result.exponentWidth (point - 1).natAbs) = some (point - 1) := by
  have hpadded : padded Layout.result.exponentWidth (point - 1).natAbs =
      decimalDigits (point - 1).natAbs := padded_one _
  have hne := Text.decimalDigits_ne_nil (point - 1).natAbs
  have hd := @Text.isDigit_of_mem_decimalDigits (point - 1).natAbs
  have hvalue := Text.digitsValue_decimalDigits (point - 1).natAbs
  rw [hpadded]
  split
  next hpos =>
    obtain ⟨hexp, he⟩ := Literal.Exponent.exponent?_eq (by decide : (['+'], false) ∈ _) hne hd
    refine ⟨hexp, he.trans ?_⟩
    rw [Literal.signed, hvalue, if_neg (by decide)]
    congr 1
    omega
  next hpos =>
    obtain ⟨hexp, he⟩ := Literal.Exponent.exponent?_eq (by decide : (['-'], true) ∈ _) hne hd
    refine ⟨hexp, he.trans ?_⟩
    rw [Literal.signed, hvalue, if_pos rfl]
    congr 1
    omega

/-- Digits read as the same pattern in every notation. -/
theorem denotes_positive (hne : ds ≠ []) (hd : ∀ c ∈ ds, c.isDigit = true) (point : Int) :
    Denotes (Layout.result.positive ds point)
      (Decimal.bits ⟨digitsValue ds, point - ds.length⟩) := by
  obtain ⟨hexp, he⟩ := exponent_result point
  rw [positive.eq_def]
  split
  next =>
    split
    next hsmall =>
      have h := denotes_small hne hd (-point).toNat
      have hpoint : -((-point).toNat : Int) = point := by omega
      rwa [hpoint] at h
    next hlarge =>
      obtain ⟨p, rfl⟩ : ∃ p : Nat, point = p := ⟨point.toNat, by omega⟩
      rw [Int.toNat_natCast]
      dsimp only
      split
      next hdrop =>
        have hp : ds.length ≤ p := List.drop_eq_nil_iff.1 hdrop
        have h := denotes_large hne hd (p - ds.length)
        rw [List.take_of_length_le hp, if_neg (by decide)]
        rwa [Int.natCast_sub hp] at h
      next hdrop =>
        have hp : p < ds.length := Nat.not_le.1 fun h => hdrop (List.drop_eq_nil_iff.2 h)
        have hnone : p - ds.length = 0 := by omega
        have h := denotes_point hd hp .none rfl
        rw [hnone, List.replicate_zero, List.append_nil]
        rwa [Int.zero_add, List.append_nil] at h
  next =>
    match ds, hne with
    | [first], _ =>
      have h := Denotes.whole (List.cons_ne_nil first []) hd hexp he
      exact h
    | first :: next :: rest, _ =>
      have hp : 1 < (first :: next :: rest).length := by simp
      have h := denotes_point hd hp hexp he
      rwa [Nat.cast_one, Int.sub_add_cancel] at h

/-- The text of a pattern other than zero and infinity. -/
theorem denotes_unsigned {bits : Nat} (h0 : 0 < bits) (h : bits < Binary64.infinity) :
    Denotes (Layout.result.unsigned bits) bits := by
  have hzero : (bits == 0) = false := beq_false_of_ne (Nat.ne_of_gt h0)
  have hinf : (bits == Binary64.infinity) = false := beq_false_of_ne (Nat.ne_of_lt h)
  have hd := denotes_positive (Text.decimalDigits_ne_nil (Decimal.shortest bits).digits)
    Text.isDigit_of_mem_decimalDigits (Decimal.shortest bits).point
  have hplaces : (Decimal.shortest bits).point -
      (decimalDigits (Decimal.shortest bits).digits).length = (Decimal.shortest bits).exponent :=
    add_sub_cancel_left _ _
  rw [Text.digitsValue_decimalDigits, hplaces, Decimal.bits_shortest h0 h] at hd
  simp only [unsigned, hzero, hinf, Bool.false_eq_true, if_false]
  exact hd

end Layout

/-! ## Whole numbers -/

theorem Binary64.whole?_eq_some {bits n : Nat} (h : whole? bits = some n) :
    (ratio bits).1 = n * (ratio bits).2 := by
  rw [whole?] at h
  dsimp only at h
  split at h
  next hmod =>
    obtain rfl := Option.some.inj h
    exact (Nat.div_mul_cancel (Nat.dvd_of_mod_eq_zero (beq_iff_eq.1 hmod))).symm
  next => cases h

/-- Only the pattern zero stands for zero. -/
theorem Binary64.eq_zero_of_whole? {bits : Nat} (h : whole? bits = some 0) : bits = 0 := by
  have hnum := whole?_eq_some h
  rcases Nat.eq_zero_or_pos bits with hbits | hbits
  · exact hbits
  · have hpos := ratio_num_pos hbits
    omega

/-- The digits of a whole number below `10 ^ 21` read as its pattern. -/
theorem denotes_whole {bits n : Nat} (hbits : bits < Binary64.infinity)
    (h : Binary64.whole? bits = some n) (hn : n < 10 ^ 21) : Denotes (decimalDigits n) bits := by
  have hd := Denotes.whole (Text.decimalDigits_ne_nil n) Text.isDigit_of_mem_decimalDigits .none rfl
  rw [Text.digitsValue_decimalDigits, List.append_nil] at hd
  have hratio := Binary64.whole?_eq_some h
  have hread : Decimal.bits ⟨n, 0⟩ = bits := by
    rcases Nat.eq_zero_or_pos n with rfl | hpos
    · rw [Binary64.eq_zero_of_whole? h]
      rfl
    · have hcount : Decimal.digitCount n ≤ 21 := (Decimal.digitCount_le_iff (by decide)).2 hn
      apply Decimal.bits_of_ratio hpos _ hbits
      · show n * 10 ^ 0 * _ = _ * 1
        rw [Nat.pow_zero, Nat.mul_one, Nat.mul_one, hratio]
      · simp only [Decimal.point]
        omega
  rwa [hread] at hd

/-! ## The text of a number -/

/-- The characters `cs` are a text of the number `x`: the name of no number, or with a minus sign or
without one the name of infinity or a numeral, which denotes `x`. -/
inductive NumberText (x : Float) : List Char → Prop
  | nan : x.isNaN = true → NumberText x "NaN".toList
  | number {negative cs y} : x.isNaN = false →
      cs = "Infinity".toList ∨ Numeral Char.isDigit cs →
      number? (String.ofList (minus negative ++ cs)) = some y → sameNumber y x = true →
      NumberText x (minus negative ++ cs)

variable {x : Float}

/-- With its sign in front a text of the pattern of a number is a text of the number. -/
theorem numberText_of_denotes {cs : List Char} (hx : x.isNaN = false)
    (h : Denotes cs (Binary64.magnitude x)) :
    NumberText x (minus (Binary64.isNegative x) ++ cs) := by
  have hread := h.number?_eq (Binary64.isNegative x)
  rw [Binary64.ofMagnitude_magnitude] at hread
  exact .number hx (.inr h.numeral) hread (sameNumber_self x)

/-- The digits of a positive whole number behind its sign. -/
theorem signedText_toList (negative : Bool) {n : Nat} (hn : 0 < n) :
    (Text.signedText (if negative then -(n : Int) else n)).toList =
      minus negative ++ decimalDigits n := by
  cases negative with
  | false => exact String.toList_ofList
  | true =>
    obtain ⟨k, rfl⟩ := Nat.exists_eq_succ_of_ne_zero hn.ne'
    show ("-" ++ Text.decimalText (k + 1)).toList = _
    have hdigits : (Text.decimalText (k + 1)).toList = decimalDigits (k + 1) :=
      String.toList_ofList
    rw [String.toList_append, hdigits]
    rfl

/-- The text of a whole number, with the sign of zero left out. -/
theorem numberText_whole {n : Nat} (hx : x.isNaN = false)
    (hbits : Binary64.magnitude x < Binary64.infinity)
    (h : Binary64.whole? (Binary64.magnitude x) = some n) (hn : n < 10 ^ 21) :
    NumberText x
      (Text.signedText (if Binary64.isNegative x then -(n : Int) else n)).toList := by
  have hd := denotes_whole hbits h hn
  rcases Nat.eq_zero_or_pos n with rfl | hpos
  · have hzero := Binary64.eq_zero_of_whole? h
    have hread := hd.number?_eq false
    rw [hzero] at hread
    have hsame : sameNumber (Binary64.ofMagnitude false 0) x = true := by
      rw [sameNumber, Bool.or_eq_true_iff]
      exact .inl ((Binary64.isZero_ofMagnitude_zero false).beq
        (Binary64.isZero_of_magnitude hzero))
    have htext : NumberText x (minus false ++ decimalDigits 0) :=
      .number hx (.inr hd.numeral) hread hsame
    cases Binary64.isNegative x <;> exact htext
  · rw [signedText_toList _ hpos]
    exact numberText_of_denotes hx hd

theorem displayWhole?_eq_some {text : String} (h : displayWhole? x = some text) :
    NumberText x text.toList := by
  rw [displayWhole?] at h
  split at h
  next => cases h
  next hfinite =>
    rw [Bool.or_eq_true_iff, not_or, Bool.not_eq_true, beq_iff_eq] at hfinite
    have hbits := lt_of_le_of_ne (Binary64.magnitude_le hfinite.1) hfinite.2
    split at h
    next => cases h
    next n hn =>
      split at h
      next => cases h
      next hlt =>
        obtain rfl := Option.some.inj h
        exact numberText_whole hfinite.1 hbits hn (Nat.not_le.1 hlt)

/-- The zeros are shown as whole numbers. -/
theorem magnitude_ne_zero_of_displayWhole? (h : displayWhole? x = none) (hx : x.isNaN = false) :
    Binary64.magnitude x ≠ 0 := by
  intro hzero
  have hwhole : Binary64.whole? 0 = some 0 := by decide +kernel
  have hfinite : (x.isNaN || 0 == Binary64.infinity) = false := by
    rw [hx]
    rfl
  rw [displayWhole?] at h
  simp only [hzero, hfinite, hwhole, Bool.false_eq_true, if_false] at h
  cases h

theorem numberText_infinity (negative : Bool) (hx : x.isNaN = false)
    (h : x = Binary64.ofMagnitude negative Binary64.infinity) :
    NumberText x (minus negative ++ "Infinity".toList) := by
  have hread : number? (String.ofList (minus negative ++ "Infinity".toList)) =
      some (Binary64.ofMagnitude negative Binary64.infinity) := by
    cases negative <;> decide +kernel
  rw [← h] at hread
  exact .number hx (.inl rfl) hread (sameNumber_self x)

/-- What a number is shown as is a text of it. -/
theorem numberText_displayNumber (x : Float) : NumberText x (displayNumber x).toList := by
  rw [displayNumber]
  cases hw : displayWhole? x with
  | some text => exact displayWhole?_eq_some hw
  | none =>
    rw [Option.getD_none, Layout.write]
    cases hx : x.isNaN with
    | true => exact .nan hx
    | false =>
      have hsign : ∀ text, (String.ofList (if Binary64.isNegative x then '-' :: text else text)) =
          String.ofList (minus (Binary64.isNegative x) ++ text) := by
        intro text
        cases Binary64.isNegative x <;> rfl
      simp only [Bool.false_eq_true, if_false]
      rw [hsign, String.toList_ofList]
      rcases Nat.eq_or_lt_of_le (Binary64.magnitude_le hx) with hinf | hlt
      · have hself := Binary64.ofMagnitude_magnitude x
        rw [hinf] at hself ⊢
        exact numberText_infinity _ hx hself.symm
      · have hpos := Nat.pos_of_ne_zero (magnitude_ne_zero_of_displayWhole? hw hx)
        exact numberText_of_denotes hx (Layout.denotes_unsigned hpos hlt)

end TermCalc
