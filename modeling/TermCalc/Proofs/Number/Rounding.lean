import Mathlib
import TermCalc.Number.Binary64

/-!
# Rounding ratios to binary64 patterns

The pattern nearest to a ratio depends on the ratio alone, not on the numbers it is written with,
and the ratio that a finite pattern stands for is rounded to that pattern. Both follow from what the
leading exponent of a ratio is: the integer logarithm of the rational number.

## Main results

* `leadingExponent_eq_log`: the leading exponent of a ratio is its logarithm
* `nearest_congr`: ratios of the same value are rounded to the same pattern
* `nearest_ratio`: rounding gives a finite pattern back
-/

namespace TermCalc.Binary64

variable {num den : Nat} {e : Int}

/-! ## The leading exponent -/

/-- A ratio is less than a power of two if it is less than one after scaling. -/
theorem scaled_lt_iff (hden : 0 < den) :
    (scaled num den e).1 < (scaled num den e).2 ↔ (num : ℚ) / den < 2 ^ e := by
  have hd : (0 : ℚ) < den := Nat.cast_pos.2 hden
  rw [div_lt_iff₀' hd]
  cases e with
  | ofNat k =>
    show num < den * 2 ^ k ↔ _
    rw [Int.ofNat_eq_natCast, zpow_natCast]
    exact_mod_cast Iff.rfl
  | negSucc k =>
    show num * 2 ^ (k + 1) < den ↔ _
    have hp : (0 : ℚ) < 2 ^ (k + 1) := by positivity
    rw [zpow_negSucc, ← div_eq_mul_inv, lt_div_iff₀ hp]
    exact_mod_cast Iff.rfl

theorem log_eq_of_bounds {r : ℚ} (hr : 0 < r) (hlow : 2 ^ e ≤ r) (hhigh : r < 2 ^ (e + 1)) :
    Int.log 2 r = e := by
  have h1 : e ≤ Int.log 2 r := (Int.zpow_le_iff_le_log Nat.one_lt_two hr).1 hlow
  have h2 : Int.log 2 r < e + 1 := (Int.lt_zpow_iff_log_lt Nat.one_lt_two hr).1 hhigh
  omega

/-- A positive natural number lies between two powers of two next to each other. -/
theorem log2_bounds {n : Nat} (hn : 0 < n) :
    (2 : ℚ) ^ (n.log2 : Int) ≤ n ∧ (n : ℚ) < 2 ^ ((n.log2 : Int) + 1) := by
  have hlow : 2 ^ n.log2 ≤ n := Nat.log2_self_le (Nat.ne_of_gt hn)
  have hhigh : n < 2 ^ (n.log2 + 1) := Nat.lt_log2_self
  exact ⟨by exact_mod_cast hlow, by exact_mod_cast hhigh⟩

/-- The leading exponent of a ratio is its logarithm. -/
theorem leadingExponent_eq_log (hnum : 0 < num) (hden : 0 < den) :
    leadingExponent num den = Int.log 2 ((num : ℚ) / den) := by
  obtain ⟨hn1, hn2⟩ := log2_bounds hnum
  obtain ⟨hd1, hd2⟩ := log2_bounds hden
  have hd : (0 : ℚ) < den := Nat.cast_pos.2 hden
  have hr : (0 : ℚ) < num / den := div_pos (Nat.cast_pos.2 hnum) hd
  have h2 : (2 : ℚ) ≠ 0 := two_ne_zero
  -- the logarithms of the two numbers leave two candidates, which are told apart by scaling
  have hlow : (2 : ℚ) ^ ((num.log2 : Int) - den.log2 - 1) ≤ num / den := by
    rw [le_div_iff₀ hd]
    calc (2 : ℚ) ^ ((num.log2 : Int) - den.log2 - 1) * den
        ≤ 2 ^ ((num.log2 : Int) - den.log2 - 1) * 2 ^ ((den.log2 : Int) + 1) := by gcongr
      _ = 2 ^ (num.log2 : Int) := by
        rw [← zpow_add₀ h2]
        congr 1
        omega
      _ ≤ num := hn1
  have hhigh : (num : ℚ) / den < 2 ^ ((num.log2 : Int) - den.log2 + 1) := by
    rw [div_lt_iff₀ hd]
    calc (num : ℚ) < 2 ^ ((num.log2 : Int) + 1) := hn2
      _ = 2 ^ ((num.log2 : Int) - den.log2 + 1) * 2 ^ (den.log2 : Int) := by
        rw [← zpow_add₀ h2]
        congr 1
        omega
      _ ≤ 2 ^ ((num.log2 : Int) - den.log2 + 1) * den := by gcongr
  rw [leadingExponent]
  dsimp only
  split
  next hlt =>
    rw [scaled_lt_iff hden] at hlt
    exact (log_eq_of_bounds hr hlow (by rwa [sub_add_cancel])).symm
  next hge =>
    rw [scaled_lt_iff hden, not_lt] at hge
    exact (log_eq_of_bounds hr hge hhigh).symm

/-! ## Common factors -/

variable {k : Nat}

theorem scaled_mul_left (num den : Nat) (e : Int) :
    scaled (k * num) (k * den) e = (k * (scaled num den e).1, k * (scaled num den e).2) := by
  cases e with
  | ofNat e => rw [scaled, scaled, Nat.mul_assoc]
  | negSucc e => rw [scaled, scaled, Nat.mul_assoc]

theorem roundedQuotient_mul_left (hk : 0 < k) (num den : Nat) :
    roundedQuotient (k * num) (k * den) = roundedQuotient num den := by
  have htwice : 2 * (k * num % (k * den)) = k * (2 * (num % den)) := by
    rw [Nat.mul_mod_mul_left, Nat.mul_left_comm]
  have hlt : k * (2 * (num % den)) < k * den ↔ 2 * (num % den) < den :=
    Nat.mul_lt_mul_left hk
  have heq : (k * (2 * (num % den)) == k * den) = (2 * (num % den) == den) := by
    rw [Bool.eq_iff_iff, beq_iff_eq, beq_iff_eq]
    exact Nat.mul_right_inj (Nat.ne_of_gt hk)
  simp only [roundedQuotient, Nat.mul_div_mul_left num den hk, htwice, hlt, heq]

/-- A factor common to both numbers of a ratio changes nothing. -/
theorem nearest_mul_left (hk : 0 < k) (hden : 0 < den) (num : Nat) :
    nearest (k * num) (k * den) = nearest num den := by
  rcases Nat.eq_zero_or_pos num with rfl | hnum
  · simp only [nearest, Nat.mul_zero, beq_self_eq_true, if_true]
  · have hleading : leadingExponent (k * num) (k * den) = leadingExponent num den := by
      have hk' : (k : ℚ) ≠ 0 := Nat.cast_ne_zero.2 (Nat.ne_of_gt hk)
      rw [leadingExponent_eq_log (Nat.mul_pos hk hnum) (Nat.mul_pos hk hden),
        leadingExponent_eq_log hnum hden, Nat.cast_mul, Nat.cast_mul, mul_div_mul_left _ _ hk']
    have hlast : lastExponent (k * num) (k * den) = lastExponent num den := by
      rw [lastExponent, lastExponent, hleading]
    have hzero : (k * num == 0) = (num == 0) := by
      rw [beq_false_of_ne (Nat.ne_of_gt hnum), beq_false_of_ne (Nat.ne_of_gt (Nat.mul_pos hk hnum))]
    simp only [nearest, hzero, hlast, scaled_mul_left, roundedQuotient_mul_left hk]

/-- The pattern depends on the ratio alone. -/
theorem nearest_congr {num' den' : Nat} (hden : 0 < den) (hden' : 0 < den')
    (h : num * den' = num' * den) : nearest num den = nearest num' den' := by
  rw [← nearest_mul_left hden' hden num, ← nearest_mul_left hden hden' num', Nat.mul_comm den' num,
    h, Nat.mul_comm num' den, Nat.mul_comm den' den]

/-! ## The ratio of a pattern -/

variable {bits : Nat}

/-- A pattern is put together from its exponent and its integer factor, which has 53 binary digits
unless the exponent is the least one. -/
theorem pattern_eq (bits : Nat) :
    bits = (exponent bits + 1074).toNat * 0x10000000000000 + significand bits ∧
      -1074 ≤ exponent bits ∧ significand bits < 2 ^ 53 ∧
      (2 ^ 52 ≤ significand bits ∨ exponent bits = -1074) := by
  rw [exponent, significand]
  split <;> omega

theorem significand_pos (h : 0 < bits) : 0 < significand bits := by
  rw [significand]
  split <;> omega

theorem exponent_le (h : bits < infinity) : exponent bits ≤ 971 := by
  have h : bits < 0x7FF0000000000000 := h
  rw [exponent]
  omega

theorem ratio_den_pos (bits : Nat) : 0 < (ratio bits).2 := by
  rw [ratio]
  split
  · exact Nat.one_pos
  · exact Nat.two_pow_pos _

/-- The ratio of a pattern is its integer factor times a power of two. -/
theorem ratio_eq (bits : Nat) :
    ((ratio bits).1 : ℚ) / (ratio bits).2 = significand bits * 2 ^ exponent bits := by
  rw [ratio]
  split
  next e he => simp [he]
  next e he => simp [he, zpow_negSucc, div_eq_mul_inv]

theorem ratio_num_pos (h : 0 < bits) : 0 < (ratio bits).1 := by
  have hs := significand_pos h
  rw [ratio]
  split
  · exact Nat.mul_pos hs (Nat.two_pow_pos _)
  · exact hs

/-- The last digit that a pattern holds of the number it stands for is that of its factor. -/
theorem lastExponent_ratio (h : 0 < bits) :
    lastExponent (ratio bits).1 (ratio bits).2 = exponent bits := by
  obtain ⟨-, hleast, hshort, hlong⟩ := pattern_eq bits
  have hs := significand_pos h
  obtain ⟨hlow, hhigh⟩ := log2_bounds hs
  have hp : (0 : ℚ) < 2 ^ exponent bits := zpow_pos two_pos _
  have hr : (0 : ℚ) < significand bits * 2 ^ exponent bits := mul_pos (Nat.cast_pos.2 hs) hp
  have hlog : Int.log 2 ((significand bits : ℚ) * 2 ^ exponent bits) =
      (significand bits).log2 + exponent bits := by
    apply log_eq_of_bounds hr
    · rw [zpow_add₀ two_ne_zero]
      exact mul_le_mul_of_nonneg_right hlow hp.le
    · rw [add_right_comm, zpow_add₀ two_ne_zero]
      exact mul_lt_mul_of_pos_right hhigh hp
  rw [lastExponent, leadingExponent_eq_log (ratio_num_pos h) (ratio_den_pos bits), ratio_eq, hlog]
  have hlt : (significand bits).log2 < 53 := (Nat.log2_lt (Nat.ne_of_gt hs)).2 hshort
  -- a factor of 53 digits fixes the exponent, and a shorter one has the least exponent anyway
  rcases hlong with hlong | hleast'
  · have hge : 52 ≤ (significand bits).log2 := (Nat.le_log2 (Nat.ne_of_gt hs)).2 hlong
    omega
  · omega

theorem roundedQuotient_mul (n : Nat) (hden : 0 < den) : roundedQuotient (n * den) den = n := by
  simp only [roundedQuotient, Nat.mul_div_cancel n hden, Nat.mul_mod_left]
  exact if_pos (by simp [hden])

theorem roundedQuotient_scaled_ratio (bits : Nat) :
    roundedQuotient (scaled (ratio bits).1 (ratio bits).2 (exponent bits)).1
        (scaled (ratio bits).1 (ratio bits).2 (exponent bits)).2 = significand bits := by
  rw [ratio]
  cases exponent bits with
  | ofNat e =>
    show roundedQuotient (significand bits * 2 ^ e) (1 * 2 ^ e) = _
    rw [Nat.one_mul]
    exact roundedQuotient_mul _ (Nat.two_pow_pos e)
  | negSucc e =>
    show roundedQuotient (significand bits * 2 ^ (e + 1)) (2 ^ (e + 1)) = _
    exact roundedQuotient_mul _ (Nat.two_pow_pos (e + 1))

/-- Rounding the ratio of a finite pattern gives the pattern back. -/
theorem nearest_ratio (h : bits < infinity) : nearest (ratio bits).1 (ratio bits).2 = bits := by
  rcases Nat.eq_zero_or_pos bits with rfl | hpos
  · decide
  · have hnum := beq_false_of_ne (Nat.ne_of_gt (ratio_num_pos hpos))
    simp only [nearest, hnum, lastExponent_ratio hpos, roundedQuotient_scaled_ratio,
      Bool.false_eq_true, if_false]
    rw [← (pattern_eq bits).1]
    exact Nat.min_eq_right h.le

end TermCalc.Binary64
