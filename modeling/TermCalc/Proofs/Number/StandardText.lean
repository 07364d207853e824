import TermCalc.Proofs.Number.Display
import TermCalc.Proofs.Number.Minimal

/-!
# Where results are written as JavaScript writes numbers

JavaScript writes a number by the digits of its shortest numeral: in positional notation, filled up
with zeros where they are needed, from `1e-6` up to `1e21`, and with an exponent elsewhere. Results
are written in the same way, with one exception. A whole number below `1e21` is written with all of
its digits, and from `2 ^ 53` on these need not be those of the shortest numeral with zeros behind.

## Main definitions

* `Decimal.standardText d`: how JavaScript writes a positive number with the shortest numeral `d`

## Main results

* `Layout.positive_eq_standardText`: results are laid out in that way
* `Decimal.standardText_eq_decimalDigits_iff`: when this is the text of a whole number
* `Decimal.IsShortest.value_eq_natCast`: whole numbers below `2 ^ 53` have exact shortest numerals
* `displayNumber_standard_iff`: which numbers are written as in JavaScript
-/

namespace TermCalc

open Literal (minus)
open Text (decimalDigits digitsValue)

namespace Decimal

variable {d : Decimal} {n : Nat}

/-- How JavaScript writes a positive number with the shortest numeral `d`: the digits with zeros
behind them, with the point in between, or behind a zero, the point and further zeros, as long as
this takes no more than 21 digits ahead of the point or six zeros ahead of the digits; else the
first digit, the point and the others if there are any, and an exponent. -/
def standardText (d : Decimal) : List Char :=
  let ds := decimalDigits d.digits
  if ds.length ≤ d.point ∧ d.point ≤ 21 then
    ds ++ List.replicate (d.point - ds.length).toNat '0'
  else if 0 < d.point ∧ d.point ≤ 21 then
    ds.take d.point.toNat ++ '.' :: ds.drop d.point.toNat
  else if -6 < d.point ∧ d.point ≤ 0 then
    '0' :: '.' :: (List.replicate (-d.point).toNat '0' ++ ds)
  else
    ds.take 1 ++ (if ds.length = 1 then [] else '.' :: ds.drop 1) ++
      'e' :: (if 0 < d.point - 1 then '+' else '-') :: decimalDigits (d.point - 1).natAbs

end Decimal

/-! ## The layout -/

/-- Results are laid out in the standard way. -/
theorem Layout.positive_eq_standardText (d : Decimal) :
    Layout.result.positive (decimalDigits d.digits) d.point = d.standardText := by
  have hne := Text.decimalDigits_ne_nil d.digits
  rw [positive.eq_def, Decimal.standardText]
  generalize decimalDigits d.digits = ds at hne
  generalize d.point = point
  have hlength : 0 < ds.length := List.length_pos_iff.2 hne
  split
  next hrange =>
    have hrange : -5 ≤ point ∧ point ≤ 21 := by
      rw [Bool.and_eq_true, decide_eq_true_eq, decide_eq_true_eq] at hrange
      exact hrange
    split
    next hsmall =>
      rw [if_neg (by omega), if_neg (by omega), if_pos (by omega)]
      rfl
    next hlarge =>
      dsimp only
      split
      next hdrop =>
        have hle : ds.length ≤ point.toNat := List.drop_eq_nil_iff.1 hdrop
        have hzeros : (point - ds.length).toNat = point.toNat - ds.length := by omega
        rw [if_neg (by decide), if_pos (by omega), List.take_of_length_le hle, hzeros]
      next hdrop =>
        have hlt : point.toNat < ds.length :=
          Nat.not_le.1 fun hle => hdrop (List.drop_eq_nil_iff.2 hle)
        have hzeros : point.toNat - ds.length = 0 := by omega
        rw [if_neg (by omega), if_pos (by omega), hzeros, List.replicate_zero, List.append_nil]
  next hrange =>
    have hrange : ¬ (-5 ≤ point ∧ point ≤ 21) := by
      rw [Bool.and_eq_true, decide_eq_true_eq, decide_eq_true_eq] at hrange
      exact hrange
    have hwhole : ¬ (ds.length ≤ point ∧ point ≤ 21) := by omega
    have hpoint : ¬ (0 < point ∧ point ≤ 21) := by omega
    have hsmall : ¬ (-6 < point ∧ point ≤ 0) := by omega
    have hsign : (0 < point - 1) = (point > 0) := propext (by omega)
    simp only [if_neg hwhole, if_neg hpoint, if_neg hsmall, hsign, ← padded_one]
    cases ds with
    | nil => exact absurd rfl hne
    | cons first rest =>
      cases rest with
      | nil => rfl
      | cons next rest => rfl

/-! ## Whole numbers -/

theorem decimalDigits_mul_pow {n : Nat} (hn : 0 < n) (k : Nat) :
    decimalDigits (n * 10 ^ k) = decimalDigits n ++ List.replicate k '0' := by
  induction k with
  | zero => simp
  | succ k ih =>
    have hpos : 0 < n * 10 ^ k := Nat.mul_pos hn (Nat.pow_pos (by decide))
    have hten : 10 ≤ 10 * (n * 10 ^ k) := Nat.le_mul_of_pos_right 10 hpos
    rw [Nat.pow_succ', Nat.mul_left_comm, decimalDigits, Nat.toDigits_of_base_le (by decide) hten,
      Nat.mul_div_cancel_left _ (by decide), Nat.mul_mod_right, List.replicate_succ',
      ← List.append_assoc, ← ih]
    rfl

namespace Decimal

variable {d : Decimal} {n : Nat}

theorem decimalDigits_length (n : Nat) : (decimalDigits n).length = digitCount n :=
  rfl

/-- The digits of a whole number that the numeral stands for. -/
theorem exists_of_value_eq (hd : d.digits % 10 ≠ 0) (h : d.value = n) :
    ∃ k : Nat, d.exponent = k ∧ n = d.digits * 10 ^ k := by
  have hexp : 0 ≤ d.exponent := le_exponent hd (by rw [h, zpow_zero, mul_one])
  obtain ⟨k, hk⟩ := Int.eq_ofNat_of_zero_le hexp
  refine ⟨k, hk, ?_⟩
  rw [value, hk, zpow_natCast] at h
  exact_mod_cast h.symm

/-- A point or the letter of an exponent is no digit of a natural number. -/
theorem ne_decimalDigits {cs : List Char} {c : Char} (hc : c ∈ cs) (h : c.isDigit = false) :
    cs ≠ decimalDigits n := by
  rintro rfl
  exact Bool.noConfusion (h.symm.trans (Text.isDigit_of_mem_decimalDigits c hc))

/-- The standard text is that of a whole number below `10 ^ 21` if the numeral stands for it. -/
theorem standardText_eq_decimalDigits_iff (hd : d.digits % 10 ≠ 0) (hn : n < 10 ^ 21) :
    d.standardText = decimalDigits n ↔ d.value = n := by
  constructor
  · intro h
    rw [standardText] at h
    split_ifs at h with hwhole hpoint hsmall
    · have hvalue := congrArg digitsValue h
      rw [Text.digitsValue_append, Text.digitsValue_decimalDigits, Text.digitsValue_decimalDigits,
        Text.digitsValue_replicate_zero, List.length_replicate, Nat.add_zero] at hvalue
      have hexp : d.exponent = ((d.point - (decimalDigits d.digits).length).toNat : Int) := by
        rw [decimalDigits_length] at hwhole ⊢
        rw [point] at hwhole ⊢
        omega
      rw [value, hexp, zpow_natCast, ← hvalue]
      push_cast
      rfl
    · exact absurd h (ne_decimalDigits (c := '.') (by simp) rfl)
    · exact absurd h (ne_decimalDigits (c := '.') (by simp) rfl)
    all_goals exact absurd h (ne_decimalDigits (c := 'e') (by simp) rfl)
  · intro h
    obtain ⟨k, hk, rfl⟩ := exists_of_value_eq hd h
    have hpos : 0 < d.digits := by omega
    have hdigits := decimalDigits_mul_pow hpos k
    have hcount : digitCount (d.digits * 10 ^ k) = digitCount d.digits + k := by
      rw [← decimalDigits_length, hdigits, List.length_append, List.length_replicate]
      rfl
    have hle : digitCount (d.digits * 10 ^ k) ≤ 21 := (digitCount_le_iff (by decide)).2 hn
    have hzeros : (d.point - digitCount d.digits).toNat = k := by
      rw [point]
      omega
    rw [standardText, decimalDigits_length]
    rw [if_pos (by rw [point]; omega), hzeros, hdigits]

/-- Between a numeral with places behind the point and a whole number with more digits there is a
power of ten. -/
theorem exists_pow_between {c : Decimal} (hd0 : 0 < d.digits) (hd : d.exponent < 0)
    (hc0 : 0 < c.digits) (hc : 0 ≤ c.exponent) (hlt : digitCount d.digits < digitCount c.digits) :
    ∃ q : Nat, d.value ≤ ((10 ^ q : Nat) : ℚ) ∧ ((10 ^ q : Nat) : ℚ) ≤ c.value := by
  have hpoint : d.point ≤ c.point - 1 := by
    rw [point, point]
    omega
  obtain ⟨q, hq⟩ : ∃ q : Nat, c.point - 1 = q := Int.eq_ofNat_of_zero_le (by rw [point]; omega)
  have hpow : ((10 ^ q : Nat) : ℚ) = 10 ^ (c.point - 1) := by
    rw [hq, zpow_natCast]
    push_cast
    rfl
  refine ⟨q, ?_, ?_⟩
  · rw [hpow]
    exact (value_bounds hd0).2.le.trans (zpow_le_zpow_right₀ (by norm_num) hpoint)
  · rw [hpow]
    exact (value_bounds hc0).1

/-- A whole number below `2 ^ 53` has more digits than a numeral that is read as its pattern only if
this is a whole number as well. -/
theorem exponent_nonneg_of_fewer_digits {c : Decimal} (hc : c.digits % 10 ≠ 0)
    (hvalue : c.value = n) (hn : n < 2 ^ 53) (hd : 0 < d.digits) (hread : d.bits = c.bits)
    (hlt : digitCount d.digits < digitCount c.digits) : 0 ≤ d.exponent := by
  by_contra hexp
  have hcpos : 0 < c.digits := by omega
  obtain ⟨k, hk, hn'⟩ := exists_of_value_eq hc hvalue
  have hpos : 0 < n := hn' ▸ Nat.mul_pos hcpos (Nat.pow_pos (by decide))
  have hcexp : 0 ≤ c.exponent := hk ▸ Int.natCast_nonneg k
  rw [bits_eq_roundRat, bits_eq_roundRat, hvalue] at hread
  -- a power of ten in between would be the number itself, and it has only one digit
  obtain ⟨q, hlow, hhigh⟩ := exists_pow_between hd (Int.not_le.1 hexp) hcpos hcexp hlt
  have hten : 10 ^ q = n := by
    apply Binary64.eq_of_roundRat_natCast (Nat.pow_pos (by decide)) hpos hn
    exact Binary64.roundRat_eq_of_between hread rfl hlow (hvalue ▸ hhigh)
  have hone : c = ⟨1, q⟩ := by
    apply eq_of_value_eq hc (show 1 % 10 ≠ 0 from Nat.one_ne_zero)
    rw [hvalue, ← hten, value, zpow_natCast]
    push_cast
    ring
  have hle : digitCount 1 ≤ digitCount d.digits :=
    (digitCount_le_iff (digitCount_pos _)).2 (Nat.one_lt_pow (digitCount_pos _).ne' (by decide))
  rw [hone] at hlt
  exact absurd hlt (Nat.not_lt.2 hle)

/-- The shortest numeral of a whole number below `2 ^ 53` stands for that number. -/
theorem IsShortest.value_eq_natCast {bits : Nat} (hd : IsShortest bits d) (h0 : 0 < bits)
    (h : bits < Binary64.infinity) (hvalue : Binary64.value bits = n) (hn : n < 2 ^ 53) :
    d.value = n := by
  have hpos : 0 < n := by
    rw [← @Nat.cast_pos ℚ, ← hvalue]
    exact Binary64.value_pos h0
  have hread : Binary64.roundRat n = bits := hvalue ▸ Binary64.roundRat_value h
  obtain ⟨c, hlast, hc⟩ : ∃ c : Decimal, c.digits % 10 ≠ 0 ∧ c.value = n := by
    refine ⟨normalize ⟨n, 0⟩, (normalize_spec hpos.ne').1, ?_⟩
    rw [value_normalize, value, zpow_zero, mul_one]
  have hcread : c.bits = bits := by rw [bits_eq_roundRat, hc, hread]
  rcases (hd.fewest c hcread).lt_or_eq with hfewer | hcount
  · have hdpos : 0 < d.digits := Nat.pos_of_ne_zero (digits_ne_zero h0 hd.reads)
    have hexp := exponent_nonneg_of_fewer_digits hlast hc hn hdpos (hd.reads.trans hcread.symm)
      hfewer
    obtain ⟨k, hk⟩ := Int.eq_ofNat_of_zero_le hexp
    have hwhole : d.value = ((d.digits * 10 ^ k : Nat) : ℚ) := by
      rw [value, hk, zpow_natCast]
      push_cast
      rfl
    have hsame : d.digits * 10 ^ k = n := by
      apply Binary64.eq_of_roundRat_natCast (Nat.mul_pos hdpos (Nat.pow_pos (by decide))) hpos hn
      rw [← hwhole, hread, ← bits_eq_roundRat, hd.reads]
    rw [hwhole, hsame]
  · have hnearest := hd.nearest c hcread hcount.symm
    rw [hvalue, hc, sub_self, abs_zero] at hnearest
    exact sub_eq_zero.1 (abs_nonpos_iff.1 hnearest)

end Decimal

/-! ## The text of a number -/

namespace Binary64

variable {x : Float} {bits n : Nat}

/-- A pattern is found to stand for a natural number if this is its number. -/
theorem whole?_eq_some_iff : whole? bits = some n ↔ value bits = n := by
  have hden := ratio_den_pos bits
  have hd : ((ratio bits).2 : ℚ) ≠ 0 := Nat.cast_ne_zero.2 hden.ne'
  have hcross : value bits = n ↔ (ratio bits).1 = n * (ratio bits).2 := by
    rw [value, ← ratio_eq, div_eq_iff hd]
    exact_mod_cast Iff.rfl
  rw [hcross]
  refine ⟨whole?_eq_some, fun h => ?_⟩
  have hmod : ((ratio bits).1 % (ratio bits).2 == 0) = true := by
    rw [h, Nat.mul_mod_left]
    rfl
  rw [whole?]
  dsimp only
  rw [if_pos hmod, h, Nat.mul_div_cancel n hden]

/-- The pattern of a finite number is below that of infinity. -/
theorem magnitude_lt (hx : x.isFinite = true) : magnitude x < infinity := by
  refine lt_of_le_of_ne (magnitude_le (isNaN_of_isFinite hx)) fun hinf => ?_
  have hself := ofMagnitude_magnitude x
  have hinfinite (negative : Bool) : (ofMagnitude negative infinity).isFinite = false := by
    cases negative <;> decide +kernel
  rw [hinf] at hself
  rw [← hself, hinfinite] at hx
  cases hx

theorem magnitude_pos (hzero : (x == 0) = false) : 0 < magnitude x :=
  Nat.pos_of_ne_zero fun h =>
    Bool.noConfusion (hzero.symm.trans (beq_zero_iff.2 (isZero_of_magnitude h)))

end Binary64

open Binary64 (isNegative magnitude)

variable {x : Float} {n : Nat}

/-- A whole number below `10 ^ 21` is written with all of its digits. -/
theorem displayNumber_of_whole (hx : x.isFinite = true) (hzero : (x == 0) = false)
    (hvalue : Binary64.value (magnitude x) = n) (hn : n < 10 ^ 21) :
    (displayNumber x).toList = minus (isNegative x) ++ decimalDigits n := by
  have hpos : 0 < n := by
    rw [← @Nat.cast_pos ℚ, ← hvalue]
    exact Binary64.value_pos (Binary64.magnitude_pos hzero)
  have hfinite : ¬ (x.isNaN || magnitude x == Binary64.infinity) = true := by
    rw [Binary64.isNaN_of_isFinite hx, beq_false_of_ne (Binary64.magnitude_lt hx).ne]
    exact Bool.false_ne_true
  have hwhole : displayWhole? x =
      some (Text.signedText (if isNegative x then -(n : Int) else n)) := by
    unfold displayWhole?
    dsimp only
    rw [if_neg hfinite, Binary64.whole?_eq_some_iff.2 hvalue]
    exact if_neg (Nat.not_le.2 hn)
  rw [displayNumber, hwhole, Option.getD_some, signedText_toList _ hpos]

/-- Every other number is written in the standard way. -/
theorem displayNumber_of_not_whole (hx : x.isFinite = true) (hzero : (x == 0) = false)
    (hwhole : ∀ n : Nat, n < 10 ^ 21 → Binary64.value (magnitude x) ≠ n) :
    (displayNumber x).toList =
      minus (isNegative x) ++ (Decimal.shortest (magnitude x)).standardText := by
  have hnan := Binary64.isNaN_of_isFinite hx
  have hinf := beq_false_of_ne (Binary64.magnitude_lt hx).ne
  have hpos := beq_false_of_ne (Binary64.magnitude_pos hzero).ne'
  have hnone : displayWhole? x = none := by
    unfold displayWhole?
    dsimp only
    rw [hnan, hinf]
    cases hn : Binary64.whole? (magnitude x) with
    | none => rfl
    | some n =>
      have hlarge : Nat.pow 10 21 ≤ n :=
        Nat.not_lt.1 fun hlt => hwhole n hlt (Binary64.whole?_eq_some_iff.1 hn)
      exact if_pos hlarge
  have hunsigned : Layout.result.unsigned (magnitude x) =
      (Decimal.shortest (magnitude x)).standardText := by
    rw [Layout.unsigned, hinf, hpos]
    exact Layout.positive_eq_standardText _
  rw [displayNumber, hnone, Option.getD_none, Layout.write, hnan, hunsigned]
  cases isNegative x <;> exact String.toList_ofList

/-- A finite number other than zero has just one shortest numeral, and it is written in the standard
way unless it is a whole number below `10 ^ 21` for which that numeral does not stand: of a whole
number all digits are written. Below `2 ^ 53` there is no exception. -/
theorem displayNumber_standard_iff (hx : x.isFinite = true) (hzero : (x == 0) = false) :
    ∃ d : Decimal, (∀ c, Decimal.IsShortest (magnitude x) c ↔ c = d) ∧
      ((displayNumber x).toList = minus (isNegative x) ++ d.standardText ↔
        ∀ n : Nat, n < 10 ^ 21 → Binary64.value (magnitude x) = n → d.value = n) ∧
      (∀ n : Nat, n < 10 ^ 21 → Binary64.value (magnitude x) = n →
        (displayNumber x).toList = minus (isNegative x) ++ decimalDigits n) ∧
      (Binary64.value (magnitude x) < 2 ^ 53 →
        (displayNumber x).toList = minus (isNegative x) ++ d.standardText) := by
  have h0 := Binary64.magnitude_pos hzero
  have h := Binary64.magnitude_lt hx
  have hd := Decimal.isShortest_shortest h0 h
  have hstandard : (displayNumber x).toList =
        minus (isNegative x) ++ (Decimal.shortest (magnitude x)).standardText ↔
      ∀ n : Nat, n < 10 ^ 21 → Binary64.value (magnitude x) = n →
        (Decimal.shortest (magnitude x)).value = n := by
    by_cases hwhole : ∃ n : Nat, n < 10 ^ 21 ∧ Binary64.value (magnitude x) = n
    · obtain ⟨n, hn, hvalue⟩ := hwhole
      rw [displayNumber_of_whole hx hzero hvalue hn, List.append_cancel_left_eq, eq_comm,
        Decimal.standardText_eq_decimalDigits_iff (hd.digits_mod_ten h0) hn]
      refine ⟨fun hsame m _ hm => ?_, fun hall => hall n hn hvalue⟩
      rw [hsame, ← hvalue, hm]
    · have hnone : ∀ n : Nat, n < 10 ^ 21 → Binary64.value (magnitude x) ≠ n :=
        fun n hn hvalue => hwhole ⟨n, hn, hvalue⟩
      refine iff_of_true (displayNumber_of_not_whole hx hzero hnone) ?_
      exact fun n hn hvalue => absurd hvalue (hnone n hn)
  refine ⟨Decimal.shortest (magnitude x), fun c => ⟨fun hc => hd.unique hc h0, ?_⟩, hstandard,
    fun n hn hvalue => displayNumber_of_whole hx hzero hvalue hn, fun hsmall => ?_⟩
  · rintro rfl
    exact hd
  · refine hstandard.2 fun n _ hvalue => hd.value_eq_natCast h0 h hvalue ?_
    rw [hvalue] at hsmall
    exact_mod_cast hsmall

/-- Of `2 ^ 55` all digits are written, the last two of which are not those of the standard text. -/
theorem displayNumber_standard_iff_two_pow :
    (Float.ofBits 0x4360000000000000).isFinite = true ∧
      (Float.ofBits 0x4360000000000000 == 0) = false ∧
      ∃ d, (∀ c, Decimal.IsShortest 0x4360000000000000 c ↔ c = d) ∧
        d.standardText = "36028797018963970".toList ∧
        (displayNumber (Float.ofBits 0x4360000000000000)).toList = "36028797018963968".toList := by
  have hx : (Float.ofBits 0x4360000000000000).isFinite = true := by decide +kernel
  have hzero : (Float.ofBits 0x4360000000000000 == 0) = false := by decide +kernel
  have hmagnitude : magnitude (Float.ofBits 0x4360000000000000) = 0x4360000000000000 := by
    decide +kernel
  have hnegative : isNegative (Float.ofBits 0x4360000000000000) = false := by decide +kernel
  have hvalue : Binary64.value 0x4360000000000000 = (36028797018963968 : Nat) := by
    norm_num [Binary64.value, Binary64.significand, Binary64.exponent]
  obtain ⟨d, honly, -, hwhole, -⟩ := displayNumber_standard_iff hx hzero
  rw [hmagnitude] at honly hwhole
  have hd := (honly _).1 (Decimal.isShortest_shortest (by decide) (by decide))
  refine ⟨hx, hzero, d, honly, ?_, ?_⟩
  · rw [← hd]
    decide +kernel
  · rw [hwhole _ (by decide) hvalue, hnegative]
    decide +kernel

end TermCalc
