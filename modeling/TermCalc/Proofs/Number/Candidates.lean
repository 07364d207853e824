import TermCalc.Proofs.Number.Order

/-!
# Numerals of a given number of digits

Of the numerals with at most a given number of digits only two need to be tried for a pattern: the
multiples of one power of ten next to the number of the pattern, below it and above. All other
numerals of so many digits lie beyond these two, or they are smaller than all numbers with the same
point. Since the numbers that are read as a pattern form an interval, one of the two is read as it
if any numeral of so many digits is, and the nearest of these is among the two.

## Main definitions

* `Decimal.lower bits count`, `Decimal.upper bits count`: the two numerals that are tried

## Main results

* `Decimal.ratioPoint_bounds`: between which powers of ten a ratio lies
* `Decimal.value_le_lower_or`: all other numerals lie beyond the two
* `Decimal.withDigits_isSome`: a numeral is found if there is one
* `Decimal.nearest_of_withDigits`, `Decimal.even_of_withDigits`: which one is found
-/

namespace TermCalc.Decimal

variable {num den bits count : Nat} {d c : Decimal} {e : Int}

/-! ## The point of a ratio -/

/-- The whole part of a ratio says between which powers of ten it lies, unless it is zero. -/
theorem div_bounds {a b : Nat} (hb : 0 < b) (h : b ≤ a) :
    10 ^ (digitCount (a / b) - 1) * b ≤ a ∧ a < 10 ^ digitCount (a / b) * b := by
  constructor
  · calc 10 ^ (digitCount (a / b) - 1) * b ≤ a / b * b :=
          Nat.mul_le_mul_right b (pow_digitCount_le (Nat.div_pos h hb))
      _ ≤ a := Nat.div_mul_le_self a b
  · exact (Nat.div_lt_iff_lt_mul hb).1 (lt_pow_digitCount (a / b))

/-- The point of a ratio says between which powers of ten it lies. -/
theorem ratioPoint_bounds (hnum : 0 < num) (hden : 0 < den) :
    (10 : ℚ) ^ (ratioPoint num den - 1) ≤ num / den ∧
      (num : ℚ) / den < 10 ^ ratioPoint num den := by
  have hd : (0 : ℚ) < den := Nat.cast_pos.2 hden
  rw [ratioPoint]
  split
  next hle =>
    obtain ⟨hlow, hhigh⟩ := div_bounds hden hle
    have hcount := digitCount_pos (num / den)
    have hpred : ((digitCount (num / den) : Nat) : Int) - 1 =
        ((digitCount (num / den) - 1 : Nat) : Int) := by omega
    rw [hpred, zpow_natCast, zpow_natCast, le_div_iff₀ hd, div_lt_iff₀ hd]
    exact ⟨by exact_mod_cast hlow, by exact_mod_cast hhigh⟩
  next hlt =>
    -- the reciprocal, rounded up, has one digit more than there are zeros behind the point
    obtain ⟨hlow, hhigh⟩ := div_bounds hnum (show num ≤ den - 1 by omega)
    have hlow : 10 ^ (digitCount ((den - 1) / num) - 1) * num < den := by omega
    have hhigh : den ≤ 10 ^ digitCount ((den - 1) / num) * num := by omega
    have hcount := digitCount_pos ((den - 1) / num)
    have hsub : (1 : Int) - digitCount ((den - 1) / num) - 1 =
        -((digitCount ((den - 1) / num) : Nat) : Int) := by omega
    have hpred : (1 : Int) - digitCount ((den - 1) / num) =
        -((digitCount ((den - 1) / num) - 1 : Nat) : Int) := by omega
    rw [hsub, hpred, zpow_neg, zpow_neg, zpow_natCast, zpow_natCast]
    constructor
    · rw [inv_le_iff_one_le_mul₀' (by positivity), mul_div_assoc', one_le_div hd]
      exact_mod_cast hhigh
    · rw [div_lt_iff₀ hd, inv_mul_eq_div, lt_div_iff₀' (by positivity)]
      exact_mod_cast hlow

/-! ## The two neighbours -/

/-- A ratio is divided by a power of ten as a ratio. -/
theorem exists_below (hden : 0 < den) (num : Nat) (e : Int) :
    ∃ n k : Nat, 0 < k ∧ (n : ℚ) / k = num / den / 10 ^ e ∧
      below num den e = (n / k, compare (2 * (n % k)) k) := by
  cases e with
  | ofNat e =>
    refine ⟨num, den * 10 ^ e, Nat.mul_pos hden (Nat.pow_pos (by decide)), ?_, rfl⟩
    rw [Int.ofNat_eq_natCast, zpow_natCast, div_div]
    push_cast
    rfl
  | negSucc e =>
    refine ⟨num * 10 ^ (e + 1), den, hden, ?_, rfl⟩
    rw [zpow_negSucc, div_inv_eq_mul, div_mul_eq_mul_div]
    push_cast
    rfl

/-- The multiple of a power of ten at or below a ratio, and which neighbour is nearer. -/
theorem below_spec (hden : 0 < den) (num : Nat) (e : Int) :
    ((below num den e).1 : ℚ) * 10 ^ e ≤ num / den ∧
      (num : ℚ) / den < ((below num den e).1 + 1) * 10 ^ e ∧
      ((below num den e).2 = .lt ↔
        2 * ((num : ℚ) / den) < (2 * (below num den e).1 + 1) * 10 ^ e) ∧
      ((below num den e).2 = .gt ↔
        (2 * (below num den e).1 + 1) * 10 ^ e < 2 * ((num : ℚ) / den)) := by
  obtain ⟨n, k, hk, hratio, hbelow⟩ := exists_below hden num e
  have hpow : (0 : ℚ) < 10 ^ e := zpow_pos (by norm_num) _
  have hk' : (0 : ℚ) < k := Nat.cast_pos.2 hk
  have hnum : (num : ℚ) / den = n / k * 10 ^ e := by
    rw [hratio, div_mul_cancel₀ _ hpow.ne']
  have hsum : n / k * k + n % k = n := Nat.div_add_mod' n k
  have hmod := Nat.mod_lt n hk
  have htwice : (2 * (n / k) + 1) * k = 2 * (n / k * k) + k := by ring
  rw [hnum, hbelow, ← mul_assoc, mul_lt_mul_iff_left₀ hpow, mul_lt_mul_iff_left₀ hpow,
    mul_lt_mul_iff_left₀ hpow, mul_le_mul_iff_left₀ hpow, mul_div_assoc', le_div_iff₀ hk',
    div_lt_iff₀ hk', div_lt_iff₀ hk', lt_div_iff₀ hk', Nat.compare_eq_lt, Nat.compare_eq_gt]
  dsimp only
  norm_cast
  rw [htwice, Nat.add_mul]
  omega

/-! ## The two numerals -/

/-- The last place of a numeral of `count` digits, with the point where a pattern has it. -/
def place (bits count : Nat) : Int :=
  ratioPoint (Binary64.ratio bits).1 (Binary64.ratio bits).2 - count

/-- The numeral below, to the last place. -/
def lower (bits count : Nat) : Decimal :=
  ⟨(below (Binary64.ratio bits).1 (Binary64.ratio bits).2 (place bits count)).1, place bits count⟩

/-- The numeral above, to the last place. -/
def upper (bits count : Nat) : Decimal :=
  ⟨(lower bits count).digits + 1, place bits count⟩

theorem upper_value (bits count : Nat) :
    (upper bits count).value = (lower bits count).value + 10 ^ place bits count := by
  simp only [upper, lower, value]
  push_cast
  ring

/-- The number of a pattern lies between the two. -/
theorem lower_le (bits count : Nat) : (lower bits count).value ≤ Binary64.value bits := by
  have h := (below_spec (Binary64.ratio_den_pos bits) (Binary64.ratio bits).1
    (place bits count)).1
  rwa [Binary64.ratio_eq] at h

theorem lt_upper (bits count : Nat) : Binary64.value bits < (upper bits count).value := by
  have h := (below_spec (Binary64.ratio_den_pos bits) (Binary64.ratio bits).1
    (place bits count)).2.1
  rw [Binary64.ratio_eq] at h
  simp only [upper, lower, value]
  push_cast
  exact h

/-- The number of a pattern has its point where the two have it. -/
theorem value_bounds_place (h : 0 < bits) (count : Nat) :
    (10 : ℚ) ^ (place bits count + count - 1) ≤ Binary64.value bits ∧
      Binary64.value bits < 10 ^ (place bits count + count) := by
  have hbounds := ratioPoint_bounds (Binary64.ratio_num_pos h) (Binary64.ratio_den_pos bits)
  rw [Binary64.ratio_eq] at hbounds
  rwa [place, sub_add_cancel]

/-- The least number with the point of the pattern is not above the lower numeral. -/
theorem pow_le_lower (h : 0 < bits) (hcount : 0 < count) :
    (10 : ℚ) ^ (place bits count + count - 1) ≤ (lower bits count).value := by
  have hpow : (0 : ℚ) < 10 ^ place bits count := zpow_pos (by norm_num) _
  have hexp : place bits count + count - 1 = ((count - 1 : Nat) : Int) + place bits count := by
    omega
  have hle := (value_bounds_place h count).1
  have hlt := hle.trans_lt (lt_upper bits count)
  rw [hexp, zpow_add₀ (by norm_num), zpow_natCast] at hlt ⊢
  rw [value] at hlt ⊢
  have hdigits : 10 ^ (count - 1) < (lower bits count).digits + 1 := by
    have h := lt_of_mul_lt_mul_right hlt hpow.le
    exact_mod_cast h
  exact mul_le_mul_of_nonneg_right (by exact_mod_cast Nat.le_of_lt_succ hdigits) hpow.le

theorem lower_digits_lt (h : 0 < bits) (count : Nat) : (lower bits count).digits < 10 ^ count := by
  have hpow : (0 : ℚ) < 10 ^ place bits count := zpow_pos (by norm_num) _
  have hlt := (lower_le bits count).trans_lt (value_bounds_place h count).2
  rw [value, add_comm, zpow_add₀ (by norm_num), zpow_natCast] at hlt
  exact_mod_cast lt_of_mul_lt_mul_right hlt hpow.le

/-- A numeral whose last place is at least `e` is a multiple of `10 ^ e`. -/
theorem exists_value_eq (d : Decimal) (h : e ≤ d.exponent) :
    ∃ m : Nat, d.value = m * 10 ^ e := by
  obtain ⟨k, hk⟩ : ∃ k : Nat, d.exponent = k + e := ⟨(d.exponent - e).toNat, by omega⟩
  refine ⟨d.digits * 10 ^ k, ?_⟩
  rw [value, hk, zpow_add₀ (by norm_num), zpow_natCast]
  push_cast
  ring

/-- All numerals of at most `count` digits lie beyond the two. -/
theorem value_le_lower_or (h : 0 < bits) (hcount : 0 < count) (hd : d.digits < 10 ^ count) :
    d.value ≤ (lower bits count).value ∨ (upper bits count).value ≤ d.value := by
  have hpow : (0 : ℚ) < 10 ^ place bits count := zpow_pos (by norm_num) _
  rcases Int.lt_or_le d.exponent (place bits count) with hlt | hle
  · left
    refine le_trans ?_ (pow_le_lower h hcount)
    have hexp : (count : Int) + d.exponent ≤ place bits count + count - 1 := by omega
    have hdigits : (d.digits : ℚ) ≤ 10 ^ count := by exact_mod_cast hd.le
    calc d.value ≤ 10 ^ count * 10 ^ d.exponent :=
          mul_le_mul_of_nonneg_right hdigits (zpow_pos (by norm_num) _).le
      _ = 10 ^ ((count : Int) + d.exponent) := by
          rw [zpow_add₀ (by norm_num), zpow_natCast]
      _ ≤ 10 ^ (place bits count + count - 1) := zpow_le_zpow_right₀ (by norm_num) hexp
  · obtain ⟨m, hm⟩ := exists_value_eq d hle
    rw [hm]
    rcases Nat.lt_or_ge (lower bits count).digits m with hlt | hle
    · right
      exact mul_le_mul_of_nonneg_right (by exact_mod_cast hlt) hpow.le
    · left
      exact mul_le_mul_of_nonneg_right (by exact_mod_cast hle) hpow.le

/-! ## Which of them is found -/

/-- A numeral between one that is read as a pattern and the number of the pattern is read as it. -/
theorem bits_eq_of_between (h : bits < Binary64.infinity) (hd : d.bits = bits)
    (hc : d.value ≤ c.value ∧ c.value ≤ Binary64.value bits ∨
      Binary64.value bits ≤ c.value ∧ c.value ≤ d.value) : c.bits = bits := by
  have hv := Binary64.roundRat_value h
  rw [bits_eq_roundRat] at hd ⊢
  rcases hc with ⟨hlow, hhigh⟩ | ⟨hlow, hhigh⟩
  · exact Binary64.roundRat_eq_of_between hd hv hlow hhigh
  · exact Binary64.roundRat_eq_of_between hv hd hlow hhigh

/-- Which of the two is nearer: the order of the distances. -/
def nearer (bits count : Nat) : Ordering :=
  (below (Binary64.ratio bits).1 (Binary64.ratio bits).2 (place bits count)).2

/-- The middle between the two, doubled. -/
theorem lower_add_upper (bits count : Nat) :
    (lower bits count).value + (upper bits count).value =
      (2 * (lower bits count).digits + 1) * 10 ^ place bits count := by
  rw [upper_value, value, lower]
  ring

theorem nearer_eq_lt_iff : nearer bits count = .lt ↔
    2 * Binary64.value bits < (lower bits count).value + (upper bits count).value := by
  have h := (below_spec (Binary64.ratio_den_pos bits) (Binary64.ratio bits).1
    (place bits count)).2.2.1
  rw [Binary64.ratio_eq] at h
  rw [lower_add_upper]
  exact h

theorem nearer_eq_gt_iff : nearer bits count = .gt ↔
    (lower bits count).value + (upper bits count).value < 2 * Binary64.value bits := by
  have h := (below_spec (Binary64.ratio_den_pos bits) (Binary64.ratio bits).1
    (place bits count)).2.2.2
  rw [Binary64.ratio_eq] at h
  rw [lower_add_upper]
  exact h

theorem withDigits_eq (bits count : Nat) : withDigits bits count =
    match (lower bits count).bits == bits, (upper bits count).bits == bits with
    | true, true =>
      match nearer bits count with
      | .lt => some (lower bits count)
      | .gt => some (upper bits count)
      | .eq =>
        some (if (lower bits count).digits % 2 == 0 then lower bits count else upper bits count)
    | true, false => some (lower bits count)
    | false, true => some (upper bits count)
    | false, false => none :=
  rfl

/-- One of the two is found, or neither is read as the pattern. The lower one is found if the upper
one is not read as the pattern or not nearer to its number, and the other way round; of two that are
equally near the even one is found. -/
theorem withDigits_cases (bits count : Nat) :
    withDigits bits count = some (lower bits count) ∧ (lower bits count).bits = bits ∧
      ((upper bits count).bits = bits →
        2 * Binary64.value bits < (lower bits count).value + (upper bits count).value ∨
          2 * Binary64.value bits = (lower bits count).value + (upper bits count).value ∧
            (lower bits count).digits % 2 = 0) ∨
    withDigits bits count = some (upper bits count) ∧ (upper bits count).bits = bits ∧
      ((lower bits count).bits = bits →
        (lower bits count).value + (upper bits count).value < 2 * Binary64.value bits ∨
          2 * Binary64.value bits = (lower bits count).value + (upper bits count).value ∧
            (lower bits count).digits % 2 = 1) ∨
    withDigits bits count = none ∧ (lower bits count).bits ≠ bits ∧
      (upper bits count).bits ≠ bits := by
  rw [withDigits_eq]
  by_cases hl : (lower bits count).bits = bits
  · by_cases hu : (upper bits count).bits = bits
    · rw [beq_iff_eq.2 hl, beq_iff_eq.2 hu]
      dsimp only
      split
      next hside => exact .inl ⟨rfl, hl, fun _ => .inl (nearer_eq_lt_iff.1 hside)⟩
      next hside => exact .inr (.inl ⟨rfl, hu, fun _ => .inl (nearer_eq_gt_iff.1 hside)⟩)
      next hside =>
        have htie : 2 * Binary64.value bits =
            (lower bits count).value + (upper bits count).value := by
          apply le_antisymm
          · exact not_lt.1 fun hlt => nomatch hside.symm.trans (nearer_eq_gt_iff.2 hlt)
          · exact not_lt.1 fun hlt => nomatch hside.symm.trans (nearer_eq_lt_iff.2 hlt)
        rcases Nat.mod_two_eq_zero_or_one (lower bits count).digits with heven | hodd
        · exact .inl ⟨by rw [heven]; rfl, hl, fun _ => .inr ⟨htie, heven⟩⟩
        · exact .inr (.inl ⟨by rw [hodd]; rfl, hu, fun _ => .inr ⟨htie, hodd⟩⟩)
    · rw [beq_iff_eq.2 hl, beq_false_of_ne hu]
      exact .inl ⟨rfl, hl, fun h => absurd h hu⟩
  · by_cases hu : (upper bits count).bits = bits
    · rw [beq_false_of_ne hl, beq_iff_eq.2 hu]
      exact .inr (.inl ⟨rfl, hu, fun h => absurd h hl⟩)
    · rw [beq_false_of_ne hl, beq_false_of_ne hu]
      exact .inr (.inr ⟨rfl, hl, hu⟩)

variable (h0 : 0 < bits) (h : bits < Binary64.infinity) (hcount : 0 < count)
  (hd : d.digits < 10 ^ count) (hbits : d.bits = bits)

include h0 h hcount hd hbits

/-- A numeral of at most `count` digits that is read as the pattern lies beyond the lower one, which
is then read as the pattern, or beyond the upper one. -/
theorem beyond_of_bits : d.value ≤ (lower bits count).value ∧ (lower bits count).bits = bits ∨
    (upper bits count).value ≤ d.value ∧ (upper bits count).bits = bits := by
  rcases value_le_lower_or h0 hcount hd with hlow | hhigh
  · exact .inl ⟨hlow, bits_eq_of_between h hbits (.inl ⟨hlow, lower_le bits count⟩)⟩
  · exact .inr ⟨hhigh, bits_eq_of_between h hbits (.inr ⟨(lt_upper bits count).le, hhigh⟩)⟩

/-- A numeral is found if there is one. -/
theorem withDigits_isSome : (withDigits bits count).isSome = true := by
  have hbeyond := beyond_of_bits h0 h hcount hd hbits
  rcases withDigits_cases bits count with ⟨hw, -⟩ | ⟨hw, -⟩ | ⟨-, hl, hu⟩
  · rw [hw]
    rfl
  · rw [hw]
    rfl
  · rcases hbeyond with ⟨-, hb⟩ | ⟨-, hb⟩
    · exact absurd hb hl
    · exact absurd hb hu

/-- The numeral that is found is nearest to the number of the pattern. -/
theorem nearest_of_withDigits (hw : withDigits bits count = some c) :
    |c.value - Binary64.value bits| ≤ |d.value - Binary64.value bits| := by
  have hlow := lower_le bits count
  have hhigh := lt_upper bits count
  have hbeyond := beyond_of_bits h0 h hcount hd hbits
  rcases withDigits_cases bits count with ⟨hw', -, hside⟩ | ⟨hw', -, hside⟩ | ⟨hw', -⟩
  · obtain rfl := Option.some.inj (hw.symm.trans hw')
    rw [abs_of_nonpos (by linarith)]
    rcases hbeyond with ⟨hd, -⟩ | ⟨hd, hu⟩
    · rw [abs_of_nonpos (by linarith)]
      linarith
    · rw [abs_of_nonneg (by linarith)]
      rcases hside hu with hnear | ⟨htie, -⟩ <;> linarith
  · obtain rfl := Option.some.inj (hw.symm.trans hw')
    rw [abs_of_nonneg (by linarith)]
    rcases hbeyond with ⟨hd, hl⟩ | ⟨hd, -⟩
    · rw [abs_of_nonpos (by linarith)]
      rcases hside hl with hnear | ⟨htie, -⟩ <;> linarith
    · rw [abs_of_nonneg (by linarith)]
      linarith
  · exact nomatch hw.symm.trans hw'

/-- If another numeral is as near as the one that is found, then that one is even, and the other one
differs from it by one in the last place. -/
theorem even_of_withDigits (hw : withDigits bits count = some c) (hne : d.value ≠ c.value)
    (htie : |d.value - Binary64.value bits| = |c.value - Binary64.value bits|) :
    c.digits % 2 = 0 ∧ (d.value = c.value + 10 ^ c.exponent ∨
      d.value = c.value - 10 ^ c.exponent) := by
  have hlow := lower_le bits count
  have hhigh := lt_upper bits count
  have hstep := upper_value bits count
  have hbeyond := beyond_of_bits h0 h hcount hd hbits
  rcases withDigits_cases bits count with ⟨hw', -, hside⟩ | ⟨hw', -, hside⟩ | ⟨hw', -⟩
  · obtain rfl := Option.some.inj (hw.symm.trans hw')
    rw [abs_of_nonpos (a := (lower bits count).value - _) (by linarith)] at htie
    rcases hbeyond with ⟨hd, -⟩ | ⟨hd, hu⟩
    · rw [abs_of_nonpos (by linarith)] at htie
      exact absurd (by linarith) hne
    · rw [abs_of_nonneg (by linarith)] at htie
      rcases hside hu with hnear | ⟨hmiddle, heven⟩
      · linarith
      · refine ⟨heven, .inl ?_⟩
        show d.value = (lower bits count).value + 10 ^ place bits count
        linarith
  · obtain rfl := Option.some.inj (hw.symm.trans hw')
    rw [abs_of_nonneg (a := (upper bits count).value - _) (by linarith)] at htie
    rcases hbeyond with ⟨hd, hl⟩ | ⟨hd, -⟩
    · rw [abs_of_nonpos (by linarith)] at htie
      rcases hside hl with hnear | ⟨hmiddle, hodd⟩
      · linarith
      · have heven : (upper bits count).digits % 2 = 0 := by
          show ((lower bits count).digits + 1) % 2 = 0
          omega
        refine ⟨heven, .inr ?_⟩
        show d.value = (upper bits count).value - 10 ^ place bits count
        linarith
    · rw [abs_of_nonneg (by linarith)] at htie
      exact absurd (by linarith) hne
  · exact nomatch hw.symm.trans hw'

end TermCalc.Decimal
