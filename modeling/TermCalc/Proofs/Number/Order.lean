import TermCalc.Proofs.Number.Shortest

/-!
# Rounding keeps the order

A greater number is never rounded to a smaller pattern. Within the numbers of one leading exponent
this is the order of rounded quotients, and from one leading exponent to the next the patterns go on
where they have stopped. So the numbers that are rounded to a pattern form an interval, and a number
that is close enough to the number of a pattern lies in it.

## Main definitions

* `Binary64.roundRat r`: the pattern nearest to the rational number `r`
* `Binary64.value bits`: the number that a finite pattern stands for
* `Decimal.value d`: the number that a numeral stands for

## Main results

* `Binary64.monotone_roundRat`: rounding keeps the order
* `Binary64.roundRat_eq_of_near`: whatever is close to the number of a pattern is rounded to it
* `Binary64.eq_of_roundRat_natCast`: natural numbers below `2 ^ 53` have patterns of their own
* `Decimal.bits_eq_roundRat`: reading a numeral is rounding its number
-/

namespace TermCalc

namespace Binary64

variable {num den num' den' m bits : Nat} {e : Int} {r r' : ℚ}

/-! ## Rounded quotients -/

/-- A quotient is rounded to at most `m` if it lies below the middle between `m` and its successor,
or on it in case `m` is even. -/
theorem roundedQuotient_le_iff (hden : 0 < den) : roundedQuotient num den ≤ m ↔
    2 * num < (2 * m + 1) * den ∨ 2 * num = (2 * m + 1) * den ∧ m % 2 = 0 := by
  have hmod := Nat.mod_lt num hden
  have hnum : 2 * num = 2 * (num / den) * den + 2 * (num % den) := by
    have hdiv := Nat.div_add_mod' num den
    rw [Nat.mul_assoc]
    omega
  have hrounded : roundedQuotient num den = num / den ∨
      roundedQuotient num den = num / den + 1 := by
    rw [roundedQuotient]
    split
    · exact .inl rfl
    · exact .inr rfl
  rcases Nat.lt_trichotomy (num / den) m with hlt | heq | hgt
  · have hle : (2 * (num / den) + 2) * den ≤ (2 * m) * den := Nat.mul_le_mul_right den (by omega)
    rw [Nat.add_mul] at hle ⊢
    refine iff_of_true (by omega) (.inl ?_)
    omega
  · subst heq
    rw [hnum, Nat.add_mul, Nat.one_mul, roundedQuotient]
    by_cases hlow : 2 * (num % den) < den
    · simp [hlow]
    · by_cases htie : 2 * (num % den) = den
      · by_cases heven : num / den % 2 = 0
        · simp [htie, heven]
        · simp [htie, heven]
      · simp [hlow, htie]
  · have hle : (2 * m + 2) * den ≤ 2 * (num / den) * den := Nat.mul_le_mul_right den (by omega)
    rw [Nat.add_mul] at hle ⊢
    refine iff_of_false (by omega) ?_
    omega

/-- The rational number rounded to a natural number, a half going to the even neighbour. -/
def halfEven (r : ℚ) : Nat :=
  roundedQuotient r.num.toNat r.den

theorem natCast_num_toNat (hr : 0 ≤ r) : ((r.num.toNat : Nat) : ℚ) = r * r.den := by
  have hnum : ((r.num.toNat : Nat) : Int) = r.num := Int.toNat_of_nonneg (Rat.num_nonneg.2 hr)
  rw [Rat.mul_den_eq_num]
  exact_mod_cast hnum

theorem halfEven_le_iff (hr : 0 ≤ r) :
    halfEven r ≤ m ↔ r < m + 1 / 2 ∨ r = m + 1 / 2 ∧ m % 2 = 0 := by
  have hden : (0 : ℚ) < r.den := Nat.cast_pos.2 r.den_pos
  have hnum := natCast_num_toNat hr
  rw [halfEven, roundedQuotient_le_iff r.den_pos, ← @Nat.cast_lt ℚ, ← @Nat.cast_inj ℚ]
  push_cast
  rw [hnum, ← mul_assoc, mul_lt_mul_iff_left₀ hden, mul_left_inj' hden.ne']
  constructor
  · rintro (h | ⟨h, heven⟩)
    · exact .inl (by linarith)
    · exact .inr ⟨by linarith, heven⟩
  · rintro (h | ⟨h, heven⟩)
    · exact .inl (by linarith)
    · exact .inr ⟨by linarith, heven⟩

theorem halfEven_mono (hr : 0 ≤ r) (h : r ≤ r') : halfEven r ≤ halfEven r' := by
  rw [halfEven_le_iff hr]
  rcases (halfEven_le_iff (hr.trans h)).1 (Nat.le_refl _) with hlt | ⟨heq, heven⟩
  · exact .inl (h.trans_lt hlt)
  · rcases h.lt_or_eq with hlt | rfl
    · exact .inl (heq ▸ hlt)
    · exact .inr ⟨heq, heven⟩

theorem halfEven_le (hr : 0 ≤ r) (h : r ≤ m) : halfEven r ≤ m :=
  (halfEven_le_iff hr).2 (.inl (by linarith))

theorem le_halfEven (hr : 0 ≤ r) (h : m - 1 / 2 < r) : m ≤ halfEven r := by
  cases m with
  | zero => exact Nat.zero_le _
  | succ m =>
    by_contra hlt
    push_cast at h
    rcases (halfEven_le_iff (m := m) hr).1 (by omega) with hhalf | ⟨hhalf, -⟩
    · linarith
    · linarith

theorem roundedQuotient_eq_halfEven (hden : 0 < den) :
    roundedQuotient num den = halfEven ((num : ℚ) / den) := by
  have hd : (0 : ℚ) < den := Nat.cast_pos.2 hden
  have hr : (0 : ℚ) ≤ num / den := div_nonneg (Nat.cast_nonneg num) hd.le
  refine eq_of_forall_ge_iff fun m => ?_
  rw [halfEven_le_iff hr, roundedQuotient_le_iff hden, div_lt_iff₀ hd, div_eq_iff hd.ne',
    ← @Nat.cast_lt ℚ, ← @Nat.cast_inj ℚ]
  push_cast
  constructor
  · rintro (h | ⟨h, heven⟩)
    · exact .inl (by linarith)
    · exact .inr ⟨by linarith, heven⟩
  · rintro (h | ⟨h, heven⟩)
    · exact .inl (by linarith)
    · exact .inr ⟨by linarith, heven⟩

/-! ## Rounding to a pattern -/

/-- The pattern nearest to a rational number, with the lowest one for negative numbers. -/
def roundRat (r : ℚ) : Nat :=
  nearest r.num.toNat r.den

theorem nearest_eq_roundRat (hden : 0 < den) : nearest num den = roundRat ((num : ℚ) / den) := by
  have hd : (0 : ℚ) < den := Nat.cast_pos.2 hden
  have hr : (0 : ℚ) ≤ num / den := div_nonneg (Nat.cast_nonneg num) hd.le
  apply nearest_congr hden (Rat.den_pos _)
  have hnum := natCast_num_toNat hr
  have hcross : (num : ℚ) * ((num : ℚ) / den).den = ((num : ℚ) / den).num.toNat * den := by
    rw [hnum]
    field_simp
  exact_mod_cast hcross

/-- The exponent of the last binary digit that a pattern can hold of a positive number. -/
def lastPlace (r : ℚ) : Int :=
  max (Int.log 2 r - 52) (-1074)

theorem lastPlace_mono (hr : 0 < r) (h : r ≤ r') : lastPlace r ≤ lastPlace r' :=
  max_le_max (Int.sub_le_sub_right (Int.log_mono_right hr h) 52) (Int.le_refl _)

/-- A pattern holds at most 53 binary digits of a number. -/
theorem div_lastPlace_lt (r : ℚ) : r / 2 ^ lastPlace r < 2 ^ 53 := by
  have hlog : r < 2 ^ (Int.log 2 r + 1) := Int.lt_zpow_succ_log_self Nat.one_lt_two r
  have hle : Int.log 2 r + 1 ≤ 53 + lastPlace r := by
    rw [lastPlace]
    omega
  rw [div_lt_iff₀ (zpow_pos two_pos _), ← zpow_natCast, ← zpow_add₀ two_ne_zero]
  exact hlog.trans_le (zpow_le_zpow_right₀ one_le_two hle)

/-- Unless the last place is the least one, a pattern holds 53 binary digits of a number. -/
theorem le_div_lastPlace (hr : 0 < r) (h : -1074 < lastPlace r) :
    2 ^ 52 ≤ r / 2 ^ lastPlace r := by
  have hlog : (2 : ℚ) ^ Int.log 2 r ≤ r := Int.zpow_log_le_self Nat.one_lt_two hr
  have hle : 52 + lastPlace r ≤ Int.log 2 r := by
    rw [lastPlace] at h ⊢
    omega
  rw [le_div_iff₀ (zpow_pos two_pos _), ← zpow_natCast, ← zpow_add₀ two_ne_zero]
  exact (zpow_le_zpow_right₀ one_le_two hle).trans hlog

/-- The pattern of a number from its last place and its digits up to there, without regard to
infinity. -/
def packed (r : ℚ) : Nat :=
  (lastPlace r + 1074).toNat * 2 ^ 52 + halfEven (r / 2 ^ lastPlace r)

theorem scaled_eq (num : Nat) (e : Int) (hden : 0 < den) : 0 < (scaled num den e).2 ∧
    ((scaled num den e).1 : ℚ) / (scaled num den e).2 = num / den / 2 ^ e := by
  have hd : (den : ℚ) ≠ 0 := Nat.cast_ne_zero.2 hden.ne'
  cases e with
  | ofNat k =>
    refine ⟨Nat.mul_pos hden (Nat.two_pow_pos k), ?_⟩
    show (num : ℚ) / ((den * 2 ^ k : Nat) : ℚ) = num / den / 2 ^ (k : Int)
    rw [zpow_natCast, div_div]
    push_cast
    rfl
  | negSucc k =>
    refine ⟨hden, ?_⟩
    show ((num * 2 ^ (k + 1) : Nat) : ℚ) / den = _
    rw [zpow_negSucc, div_inv_eq_mul, div_mul_eq_mul_div]
    push_cast
    rfl

theorem roundRat_eq_min (hr : 0 < r) : roundRat r = min infinity (packed r) := by
  have hnum := natCast_num_toNat hr.le
  have hden : (0 : ℚ) < r.den := Nat.cast_pos.2 r.den_pos
  have hratio : ((r.num.toNat : Nat) : ℚ) / r.den = r := by
    rw [hnum, mul_div_cancel_right₀ _ hden.ne']
  have hpos : 0 < r.num.toNat := by
    rw [← @Nat.cast_pos ℚ, hnum]
    exact mul_pos hr hden
  have hlast : lastExponent r.num.toNat r.den = lastPlace r := by
    rw [lastExponent, leadingExponent_eq_log hpos r.den_pos, hratio, lastPlace]
  have hzero : (r.num.toNat == 0) = false := beq_false_of_ne hpos.ne'
  obtain ⟨hscaled, hquotient⟩ := scaled_eq r.num.toNat (lastPlace r) r.den_pos
  simp only [roundRat, nearest, hzero, hlast, roundedQuotient_eq_halfEven hscaled, hquotient,
    hratio, Bool.false_eq_true, if_false]
  rfl

theorem roundRat_of_nonpos (hr : r ≤ 0) : roundRat r = 0 := by
  have hnum : r.num.toNat = 0 := Int.toNat_of_nonpos (Rat.num_nonpos.2 hr)
  rw [roundRat, hnum]
  rfl

/-- The patterns go on from one last place to the next where they have stopped. -/
theorem packed_mono (hr : 0 < r) (h : r ≤ r') : packed r ≤ packed r' := by
  have hpos (e : Int) : (0 : ℚ) < 2 ^ e := zpow_pos two_pos e
  have hle := lastPlace_mono hr h
  rcases hle.eq_or_lt with heq | hlt
  · rw [packed, packed, ← heq]
    apply Nat.add_le_add_left
    exact halfEven_mono (div_nonneg hr.le (hpos _).le) (div_le_div_of_nonneg_right h (hpos _).le)
  · have hleast : -1074 ≤ lastPlace r := Int.le_max_right _ _
    have hlow : halfEven (r / 2 ^ lastPlace r) ≤ 2 ^ 53 :=
      halfEven_le (div_nonneg hr.le (hpos _).le) (by exact_mod_cast (div_lastPlace_lt r).le)
    have hhigh : 2 ^ 52 ≤ halfEven (r' / 2 ^ lastPlace r') := by
      have hdigits := le_div_lastPlace (hr.trans_le h) (by omega)
      apply le_halfEven
      · linarith
      · push_cast
        linarith
    rw [packed, packed]
    omega

/-- Rounding keeps the order. -/
theorem monotone_roundRat : Monotone roundRat := by
  intro r r' h
  rcases le_or_gt r 0 with hr | hr
  · rw [roundRat_of_nonpos hr]
    exact Nat.zero_le _
  · rw [roundRat_eq_min hr, roundRat_eq_min (hr.trans_le h)]
    exact min_le_min_left _ (packed_mono hr h)

theorem roundRat_le_infinity (r : ℚ) : roundRat r ≤ infinity := by
  rcases le_or_gt r 0 with hr | hr
  · rw [roundRat_of_nonpos hr]
    exact Nat.zero_le _
  · rw [roundRat_eq_min hr]
    exact min_le_left _ _

/-! ## The number of a pattern -/

/-- The number that a finite pattern stands for. -/
def value (bits : Nat) : ℚ :=
  significand bits * 2 ^ exponent bits

theorem value_pos (h : 0 < bits) : 0 < value bits :=
  mul_pos (Nat.cast_pos.2 (significand_pos h)) (zpow_pos two_pos _)

/-- The number of a finite pattern is rounded to the pattern. -/
theorem roundRat_value (h : bits < infinity) : roundRat (value bits) = bits := by
  rw [value, ← ratio_eq, ← nearest_eq_roundRat (ratio_den_pos bits), nearest_ratio h]

/-- An integer factor of 53 binary digits and an exponent make up a finite pattern. -/
theorem exists_pattern {s : Nat} (hlow : 2 ^ 52 ≤ s) (hhigh : s < 2 ^ 53) (hleast : -1074 ≤ e)
    (hgreatest : e ≤ 971) : ∃ bits, bits < infinity ∧ value bits = s * 2 ^ e := by
  obtain ⟨k, rfl⟩ : ∃ k : Nat, e = (k : Int) - 1074 := ⟨(e + 1074).toNat, by omega⟩
  refine ⟨k * 0x10000000000000 + s, ?_, ?_⟩
  · show _ < 0x7FF0000000000000
    omega
  · have hs : significand (k * 0x10000000000000 + s) = s := by
      rw [significand]
      split <;> omega
    have he : exponent (k * 0x10000000000000 + s) = (k : Int) - 1074 := by
      rw [exponent]
      omega
    rw [value, hs, he]

/-- The natural numbers up to `2 ^ 53` are numbers of patterns. -/
theorem exists_value_eq_natCast (h0 : 0 < m) (h : m ≤ 2 ^ 53) :
    ∃ bits, bits < infinity ∧ value bits = m := by
  rcases h.eq_or_lt with rfl | hlt
  · obtain ⟨bits, hbits, hvalue⟩ := exists_pattern (s := 2 ^ 52) (e := 1) (by decide) (by decide)
      (by decide) (by decide)
    refine ⟨bits, hbits, hvalue.trans ?_⟩
    norm_num
  · have hlog : m.log2 < 53 := (Nat.log2_lt h0.ne').2 hlt
    obtain ⟨k, hk⟩ : ∃ k : Nat, m.log2 + k = 52 := ⟨52 - m.log2, by omega⟩
    have hlow : 2 ^ 52 ≤ m * 2 ^ k := by
      rw [← hk, Nat.pow_add]
      exact Nat.mul_le_mul_right _ ((Nat.le_log2 h0.ne').1 (Nat.le_refl _))
    have hhigh : m * 2 ^ k < 2 ^ 53 := by
      have hk' : 53 = m.log2 + 1 + k := by omega
      rw [hk', Nat.pow_add]
      exact Nat.mul_lt_mul_of_pos_right Nat.lt_log2_self (Nat.two_pow_pos k)
    obtain ⟨bits, hbits, hvalue⟩ :=
      exists_pattern (e := -(k : Int)) hlow hhigh (by omega) (by omega)
    refine ⟨bits, hbits, hvalue.trans ?_⟩
    rw [zpow_neg, zpow_natCast]
    push_cast
    exact mul_inv_cancel_right₀ (pow_ne_zero k two_ne_zero) _

/-- Below `2 ^ 53` natural numbers are told apart from all others by their patterns. -/
theorem eq_of_roundRat_natCast {n : Nat} (hn : 0 < n) (hm : 0 < m) (hlt : m < 2 ^ 53)
    (h : roundRat n = roundRat m) : n = m := by
  have hexact {k : Nat} (h0 : 0 < k) (hk : k ≤ 2 ^ 53) (h : roundRat k = roundRat m) : k = m := by
    obtain ⟨b, hb, hvalue⟩ := exists_value_eq_natCast h0 hk
    obtain ⟨c, hc, hvalue'⟩ := exists_value_eq_natCast hm hlt.le
    rw [← hvalue, ← hvalue', roundRat_value hb, roundRat_value hc] at h
    rw [← @Nat.cast_inj ℚ, ← hvalue, ← hvalue', h]
  rcases Nat.le_total n (2 ^ 53) with hle | hge
  · exact hexact hn hle h
  · have hlow : roundRat m ≤ roundRat ((2 ^ 53 : Nat) : ℚ) :=
      monotone_roundRat (Nat.cast_le.2 hlt.le)
    have hhigh : roundRat ((2 ^ 53 : Nat) : ℚ) ≤ roundRat n :=
      monotone_roundRat (Nat.cast_le.2 hge)
    have heq := hexact (by decide) le_rfl (le_antisymm (hhigh.trans h.le) hlow)
    omega

/-- Numbers between two that are rounded to a pattern are rounded to it, too. -/
theorem roundRat_eq_of_between {a c : ℚ} (ha : roundRat a = bits) (hc : roundRat c = bits)
    (har : a ≤ r) (hrc : r ≤ c) : roundRat r = bits :=
  le_antisymm (hc ▸ monotone_roundRat hrc) (ha ▸ monotone_roundRat har)

/-- What is less than half a step above the number of a pattern is not rounded beyond it. -/
theorem packed_le (hr : 0 < r) (h : r < (significand bits + 1 / 2) * 2 ^ exponent bits) :
    packed r ≤ bits := by
  obtain ⟨hbits, hleast, hshort, hlong⟩ := pattern_eq bits
  have hq : (0 : ℚ) < 2 ^ exponent bits := zpow_pos two_pos _
  have hshort' : ((significand bits : Nat) : ℚ) + 1 ≤ 2 ^ 53 := by exact_mod_cast hshort
  have hlog : Int.log 2 r < 53 + exponent bits := by
    apply (Int.lt_zpow_iff_log_lt Nat.one_lt_two hr).1
    push_cast
    rw [zpow_add₀ two_ne_zero]
    exact h.trans (mul_lt_mul_of_pos_right (by norm_num; linarith) hq)
  have hplace : lastPlace r ≤ exponent bits := by
    rw [lastPlace]
    omega
  rcases hplace.eq_or_lt with heq | hlt
  · have hdigits : halfEven (r / 2 ^ lastPlace r) ≤ significand bits := by
      rw [heq, halfEven_le_iff (div_nonneg hr.le hq.le)]
      exact .inl ((div_lt_iff₀ hq).2 h)
    rw [packed]
    omega
  · have hleast' : -1074 ≤ lastPlace r := Int.le_max_right _ _
    have hdigits : halfEven (r / 2 ^ lastPlace r) ≤ 2 ^ 53 :=
      halfEven_le (div_nonneg hr.le (zpow_pos two_pos _).le)
        (by exact_mod_cast (div_lastPlace_lt r).le)
    rw [packed]
    omega

/-- The digits of the number of a pattern, less by so much that this matters only for the next
lower place. -/
theorem digits_sub_le (h : value bits - value bits / 2 ^ 54 ≤ r) :
    (significand bits : ℚ) - significand bits / 2 ^ 54 ≤ r / 2 ^ exponent bits := by
  have hq : (0 : ℚ) < 2 ^ exponent bits := zpow_pos two_pos _
  rw [le_div_iff₀ hq]
  rw [value] at h
  linarith

/-- Below the least number of its place a pattern is rounded to from the next lower place only, and
there as the number that follows the last one. -/
theorem lastPlace_of_lt (h : value bits - value bits / 2 ^ 54 ≤ r)
    (hlt : lastPlace r < exponent bits) :
    lastPlace r = exponent bits - 1 ∧ significand bits = 2 ^ 52 ∧
      2 ^ 53 - 1 / 2 ≤ r / 2 ^ lastPlace r := by
  obtain ⟨-, -, hshort, hlong⟩ := pattern_eq bits
  have hleast : -1074 ≤ lastPlace r := Int.le_max_right _ _
  have hlong : 2 ^ 52 ≤ significand bits := by omega
  have hlong' : (2 : ℚ) ^ 52 ≤ significand bits := by exact_mod_cast hlong
  have hdigits := digits_sub_le h
  have hbelow := div_lastPlace_lt r
  obtain ⟨j, hj⟩ : ∃ j : Nat, exponent bits = lastPlace r + 1 + j :=
    ⟨(exponent bits - lastPlace r - 1).toNat, by omega⟩
  have hshift : r / 2 ^ lastPlace r = r / 2 ^ exponent bits * (2 * 2 ^ j) := by
    rw [hj, zpow_add₀ two_ne_zero, zpow_add₀ two_ne_zero, zpow_natCast, zpow_one]
    field_simp
  rw [hshift] at hbelow ⊢
  -- two places below, the number would have too many digits
  have hj0 : j = 0 := by
    by_contra hne
    have htwo : (2 : ℚ) ≤ 2 ^ j := by
      have hle : 2 ^ 1 ≤ 2 ^ j := Nat.pow_le_pow_right (by decide) (Nat.one_le_iff_ne_zero.2 hne)
      exact_mod_cast hle
    nlinarith
  subst hj0
  refine ⟨by omega, ?_, by linarith⟩
  by_contra hne
  have hmore : ((2 ^ 52 + 1 : Nat) : ℚ) ≤ significand bits :=
    Nat.cast_le.2 (lt_of_le_of_ne hlong (Ne.symm hne))
  push_cast at hmore
  linarith

/-- What is less below the number of a pattern than half a step of the next lower place is not
rounded to a lower pattern. -/
theorem le_packed (h0 : 0 < bits) (h : value bits - value bits / 2 ^ 54 ≤ r) :
    bits ≤ packed r := by
  obtain ⟨hbits, hleast, hshort, hlong⟩ := pattern_eq bits
  have hr : 0 < r := by
    have hv := value_pos h0
    linarith
  have hdigits_pos : 0 ≤ r / 2 ^ lastPlace r := div_nonneg hr.le (zpow_pos two_pos _).le
  have hshort' : ((significand bits : Nat) : ℚ) < 2 ^ 53 := by exact_mod_cast hshort
  rcases lt_trichotomy (lastPlace r) (exponent bits) with hlt | heq | hgt
  · obtain ⟨hplace, hs, hhalf⟩ := lastPlace_of_lt h hlt
    have hdigits : 2 ^ 53 ≤ halfEven (r / 2 ^ lastPlace r) := by
      by_contra hless
      rcases (halfEven_le_iff (m := 2 ^ 53 - 1) hdigits_pos).1 (by omega) with hbelow | ⟨-, heven⟩
      · norm_num at hbelow
        linarith
      · simp at heven
    rw [packed]
    omega
  · have hdigits : significand bits ≤ halfEven (r / 2 ^ lastPlace r) := by
      have hnear := digits_sub_le h
      rw [heq] at hdigits_pos ⊢
      exact le_halfEven hdigits_pos (by linarith)
    rw [packed]
    omega
  · have hdigits : 2 ^ 52 ≤ halfEven (r / 2 ^ lastPlace r) := by
      have hmany := le_div_lastPlace hr (by omega)
      apply le_halfEven hdigits_pos
      push_cast
      linarith
    rw [packed]
    omega

/-- Whatever is close to the number of a finite pattern is rounded to the pattern. -/
theorem roundRat_eq_of_near (h0 : 0 < bits) (h : bits < infinity)
    (hr : |r - value bits| ≤ value bits / 2 ^ 54) : roundRat r = bits := by
  obtain ⟨hlow, hhigh⟩ := abs_le.1 hr
  have hv := value_pos h0
  have hpos : 0 < r := by linarith
  have hupper : r < (significand bits + 1 / 2) * 2 ^ exponent bits := by
    have hq : (0 : ℚ) < 2 ^ exponent bits := zpow_pos two_pos _
    have hshort : ((significand bits : Nat) : ℚ) < 2 ^ 53 := by
      exact_mod_cast (pattern_eq bits).2.2.1
    have hhalf : value bits / 2 ^ 54 < 1 / 2 * 2 ^ exponent bits := by
      rw [value, mul_div_right_comm]
      exact mul_lt_mul_of_pos_right (by linarith) hq
    rw [add_mul]
    exact (sub_le_iff_le_add.1 hhigh).trans_lt (by rw [value] at *; linarith)
  have hle := packed_le hpos hupper
  have hge := le_packed h0 (r := r) (by linarith)
  rw [roundRat_eq_min hpos, le_antisymm hle hge]
  exact min_eq_right h.le

end Binary64

/-! ## Reading numerals -/

namespace Decimal

open Binary64 (roundRat monotone_roundRat)

variable {d d' : Decimal}

/-- The number that a numeral stands for. -/
def value (d : Decimal) : ℚ :=
  d.digits * 10 ^ d.exponent

theorem ratio_eq_value (d : Decimal) : (d.ratio.1 : ℚ) / d.ratio.2 = d.value := by
  rw [ratio, value]
  split
  next e he => simp [he]
  next e he => simp [he, zpow_negSucc, div_eq_mul_inv]

theorem pow_digitCount_le {n : Nat} (h : 0 < n) : 10 ^ (digitCount n - 1) ≤ n := by
  rcases Nat.eq_zero_or_pos (digitCount n - 1) with hzero | hpos
  · rw [hzero]
    exact h
  · by_contra hlt
    have hle := (digitCount_le_iff hpos).2 (Nat.not_le.1 hlt)
    omega

/-- The point of a positive numeral says between which powers of ten it lies. -/
theorem value_bounds (h : 0 < d.digits) :
    (10 : ℚ) ^ (d.point - 1) ≤ d.value ∧ d.value < 10 ^ d.point := by
  have hten : (10 : ℚ) ≠ 0 := by norm_num
  have hpos : (0 : ℚ) < 10 ^ d.exponent := zpow_pos (by norm_num) _
  have hlow : (10 : ℚ) ^ (digitCount d.digits - 1) ≤ d.digits := by
    exact_mod_cast pow_digitCount_le h
  have hhigh : (d.digits : ℚ) < 10 ^ digitCount d.digits := by
    exact_mod_cast lt_pow_digitCount d.digits
  have hcount := digitCount_pos d.digits
  have hpoint : d.point - 1 = (digitCount d.digits - 1 : Nat) + d.exponent := by
    rw [point]
    omega
  rw [value, hpoint, point, zpow_add₀ hten, zpow_add₀ hten, zpow_natCast, zpow_natCast]
  exact ⟨mul_le_mul_of_nonneg_right hlow hpos.le, mul_lt_mul_of_pos_right hhigh hpos⟩

/-- Reading a numeral is rounding its number, also where the position of the point decides. -/
theorem bits_eq_roundRat (d : Decimal) : d.bits = roundRat d.value := by
  have hten : (1 : ℚ) ≤ 10 := by norm_num
  rcases Nat.eq_zero_or_pos d.digits with hzero | hpos
  · have hvalue : d.value = 0 := by rw [value, hzero, Nat.cast_zero, zero_mul]
    rw [hvalue, Binary64.roundRat_of_nonpos le_rfl]
    simp [bits, hzero]
  · obtain ⟨hlow, hhigh⟩ := value_bounds hpos
    have hne : (d.digits == 0) = false := beq_false_of_ne hpos.ne'
    rw [bits, hne, Bool.false_or]
    split_ifs with hsmall hlarge
    · have hleast : roundRat (10 ^ (-330 : Int)) = 0 := by decide +kernel
      have hle : d.value ≤ 10 ^ (-330 : Int) :=
        hhigh.le.trans (zpow_le_zpow_right₀ hten (of_decide_eq_true hsmall).le)
      have hmono := monotone_roundRat hle
      omega
    · have hgreatest : roundRat (10 ^ (330 : Int)) = Binary64.infinity := by decide +kernel
      have hle : (10 : ℚ) ^ (330 : Int) ≤ d.value :=
        (zpow_le_zpow_right₀ hten (by omega)).trans hlow
      have hmono := monotone_roundRat hle
      have hmax := Binary64.roundRat_le_infinity d.value
      omega
    · rw [Binary64.nearest_eq_roundRat d.ratio_den_pos, ratio_eq_value]

/-- The greater numeral is not read as a smaller pattern. -/
theorem bits_mono (h : d.value ≤ d'.value) : d.bits ≤ d'.bits := by
  rw [bits_eq_roundRat, bits_eq_roundRat]
  exact monotone_roundRat h

end Decimal

end TermCalc
