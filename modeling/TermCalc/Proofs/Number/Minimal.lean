import TermCalc.Proofs.Number.Candidates

/-!
# The shortest numeral

There is exactly one numeral that is read as a given pattern with as few digits as possible, lies as
near to its number as any other of so many digits, and is even where two of them are equally near.
It is the one that is written for the pattern: seventeen digits are always enough, and none of the
numbers of digits that have been tried before would have done.

## Main definitions

* `Decimal.IsShortest bits d`: `d` is the shortest numeral of the pattern `bits`

## Main results

* `Decimal.bits_of_seventeen_digits`: seventeen digits are enough
* `Decimal.isShortest_shortest`: the numeral that is written is the shortest one
* `Decimal.IsShortest.unique`: there is only one
-/

namespace TermCalc.Decimal

open Binary64 (infinity)

variable {bits count : Nat} {c d : Decimal}

/-- A numeral is the shortest one of a pattern: no numeral with fewer digits is read as it, of those
with as many digits none is nearer to the number of the pattern, and the digits are even, counted in
the finer one of their last places, if another one is equally near. -/
structure IsShortest (bits : Nat) (d : Decimal) : Prop where
  reads : d.bits = bits
  fewest : ∀ c : Decimal, c.bits = bits → digitCount d.digits ≤ digitCount c.digits
  nearest : ∀ c : Decimal, c.bits = bits → digitCount c.digits = digitCount d.digits →
    |d.value - Binary64.value bits| ≤ |c.value - Binary64.value bits|
  even : ∀ c : Decimal, c.bits = bits → digitCount c.digits = digitCount d.digits →
    c.value ≠ d.value → |c.value - Binary64.value bits| = |d.value - Binary64.value bits| →
      d.exponent ≤ c.exponent → d.digits % 2 = 0

/-! ## Trailing zeros -/

theorem strip_spec (fuel : Nat) (d : Decimal) :
    ∃ k : Nat, d.digits = (d.strip fuel).digits * 10 ^ k ∧
      (d.strip fuel).exponent = d.exponent + k := by
  induction fuel generalizing d with
  | zero => exact ⟨0, by simp [strip], by simp [strip]⟩
  | succ fuel ih =>
    rw [strip]
    split
    next h =>
      obtain ⟨hlast, -⟩ := Bool.and_eq_true_iff.1 h
      have hten : d.digits / 10 * 10 = d.digits :=
        Nat.div_mul_cancel (Nat.dvd_of_mod_eq_zero (beq_iff_eq.1 hlast))
      obtain ⟨k, hdigits, hexp⟩ := ih ⟨d.digits / 10, d.exponent + 1⟩
      refine ⟨k + 1, ?_, ?_⟩
      · rw [Nat.pow_succ, ← Nat.mul_assoc, ← hdigits, hten]
      · rw [hexp]
        push_cast
        omega
    next => exact ⟨0, by simp, by simp⟩

theorem strip_mod_ten {fuel : Nat} (h0 : d.digits ≠ 0) (h : d.digits < 10 ^ fuel) :
    (d.strip fuel).digits % 10 ≠ 0 := by
  induction fuel generalizing d with
  | zero => exact absurd (Nat.lt_one_iff.1 h) h0
  | succ fuel ih =>
    rw [strip]
    split
    next hlast =>
      obtain ⟨hlast, -⟩ := Bool.and_eq_true_iff.1 hlast
      have hmod := beq_iff_eq.1 hlast
      apply ih
      · show d.digits / 10 ≠ 0
        omega
      · exact Nat.div_lt_of_lt_mul (by rwa [Nat.pow_succ, Nat.mul_comm] at h)
    next hlast =>
      intro hmod
      simp [hmod, h0] at hlast

/-- What is stripped off are zeros at the end, all of them. -/
theorem normalize_spec (h0 : d.digits ≠ 0) :
    d.normalize.digits % 10 ≠ 0 ∧ ∃ k : Nat, d.digits = d.normalize.digits * 10 ^ k ∧
      d.normalize.exponent = d.exponent + k :=
  ⟨strip_mod_ten h0 (lt_pow_digitCount _), strip_spec _ d⟩

theorem value_mul_pow (n k : Nat) (e : Int) : value ⟨n * 10 ^ k, e⟩ = value ⟨n, e + k⟩ := by
  simp only [value]
  rw [zpow_add₀ (by norm_num), zpow_natCast]
  push_cast
  ring

theorem value_normalize (d : Decimal) : d.normalize.value = d.value := by
  obtain ⟨k, hdigits, hexp⟩ := strip_spec (digitCount d.digits) d
  have hvalue := value_mul_pow d.normalize.digits k d.exponent
  rw [← hexp] at hvalue
  show value ⟨d.normalize.digits, d.normalize.exponent⟩ = value ⟨d.digits, d.exponent⟩
  rw [hdigits]
  exact hvalue.symm

/-- Without trailing zeros the last place is as low as it has to be. -/
theorem le_exponent {m : Nat} {e : Int} (hd : d.digits % 10 ≠ 0) (h : d.value = m * 10 ^ e) :
    e ≤ d.exponent := by
  by_contra hlt
  obtain ⟨k, hk⟩ : ∃ k : Nat, e = k + 1 + d.exponent := ⟨(e - d.exponent - 1).toNat, by omega⟩
  have hpow : (10 : ℚ) ^ d.exponent ≠ 0 := (zpow_pos (by norm_num) _).ne'
  rw [value, hk, zpow_add₀ (by norm_num), ← mul_assoc, mul_left_inj' hpow] at h
  have hdigits : d.digits = m * 10 ^ k * 10 := by
    rw [Nat.mul_assoc, ← Nat.pow_succ]
    exact_mod_cast h
  exact hd (by rw [hdigits, Nat.mul_mod_left])

/-- Without trailing zeros the digits of a number are determined. -/
theorem eq_of_value_eq (hc : c.digits % 10 ≠ 0) (hd : d.digits % 10 ≠ 0)
    (h : c.value = d.value) : c = d := by
  have hexp : c.exponent = d.exponent :=
    le_antisymm (le_exponent hd h.symm) (le_exponent hc h)
  have hpow : (10 : ℚ) ^ d.exponent ≠ 0 := (zpow_pos (by norm_num) _).ne'
  rw [value, value, hexp, mul_left_inj' hpow, Nat.cast_inj] at h
  cases c
  cases d
  simp_all

/-! ## Seventeen digits -/

/-- Of the two numerals of seventeen digits next to the number of a pattern, the nearer one is close
enough to be read as the pattern. -/
theorem bits_of_seventeen_digits (h0 : 0 < bits) (h : bits < infinity) :
    (lower bits 17).bits = bits ∨ (upper bits 17).bits = bits := by
  have hlow := lower_le bits 17
  have hhigh := lt_upper bits 17
  have hstep := upper_value bits 17
  have hleast := (value_bounds_place h0 17).1
  have hexp : place bits 17 + (17 : Nat) - 1 = 16 + place bits 17 := by omega
  have hpow : (0 : ℚ) < 10 ^ place bits 17 := zpow_pos (by norm_num) _
  rw [hexp, zpow_add₀ (by norm_num)] at hleast
  norm_num at hleast
  have hnear : 10 ^ place bits 17 / 2 ≤ Binary64.value bits / 2 ^ 54 := by
    norm_num
    linarith
  rw [bits_eq_roundRat, bits_eq_roundRat]
  rcases le_total (2 * Binary64.value bits) ((lower bits 17).value + (upper bits 17).value) with
    hside | hside
  · left
    apply Binary64.roundRat_eq_of_near h0 h
    rw [abs_of_nonpos (by linarith)]
    linarith
  · right
    apply Binary64.roundRat_eq_of_near h0 h
    rw [abs_of_nonneg (by linarith)]
    linarith

theorem withDigits_seventeen_isSome (h0 : 0 < bits) (h : bits < infinity) :
    (withDigits bits 17).isSome = true := by
  rcases withDigits_cases bits 17 with ⟨hw, -⟩ | ⟨hw, -⟩ | ⟨-, hl, hu⟩
  · rw [hw]
    rfl
  · rw [hw]
    rfl
  · exact absurd (bits_of_seventeen_digits h0 h) (not_or.2 ⟨hl, hu⟩)

/-! ## The numeral that is written -/

/-- The numeral that is written has been found for the least number of digits for which any has been
found. -/
theorem exists_withDigits (h0 : 0 < bits) (h : bits < infinity) :
    ∃ count c, 0 < count ∧ withDigits bits count = some c ∧ shortest bits = c.normalize ∧
      ∀ k, 0 < k → k < count → withDigits bits k = none := by
  have hsome : ((List.range 17).findSome? fun n => withDigits bits (n + 1)).isSome = true :=
    List.findSome?_isSome_iff.2 ⟨16, by decide, withDigits_seventeen_isSome h0 h⟩
  obtain ⟨c, hc⟩ := Option.isSome_iff_exists.1 hsome
  obtain ⟨before, n, after, hrange, hn, hbefore⟩ := List.findSome?_eq_some_iff.1 hc
  refine ⟨n + 1, c, Nat.succ_pos n, hn, by rw [shortest, hc, Option.getD_some], ?_⟩
  intro k hk hlt
  have hlength : before.length < 17 := by
    have htotal := congrArg List.length hrange
    simp only [List.length_range, List.length_append, List.length_cons] at htotal
    omega
  have hn' : before.length = n := by
    have hget : (List.range 17)[before.length]? = some n := by rw [hrange]; simp
    rw [List.getElem?_range hlength] at hget
    exact Option.some.inj hget
  have hmem : k - 1 ∈ before := by
    have hget : (List.range 17)[k - 1]? = some (k - 1) := List.getElem?_range (by omega)
    rw [hrange, List.getElem?_append_left (by omega)] at hget
    exact List.mem_of_getElem? hget
  have hnone := hbefore _ hmem
  rwa [Nat.sub_add_cancel hk] at hnone

theorem digits_of_withDigits (h0 : 0 < bits) (hw : withDigits bits count = some c) :
    c.digits ≤ 10 ^ count ∧ c.exponent = place bits count := by
  have hlt := lower_digits_lt h0 count
  rcases withDigits_cases bits count with ⟨hw', -⟩ | ⟨hw', -⟩ | ⟨hw', -⟩
  · obtain rfl := Option.some.inj (hw.symm.trans hw')
    exact ⟨hlt.le, rfl⟩
  · obtain rfl := Option.some.inj (hw.symm.trans hw')
    exact ⟨hlt, rfl⟩
  · exact nomatch hw.symm.trans hw'

theorem digits_ne_zero (h0 : 0 < bits) (h : c.bits = bits) : c.digits ≠ 0 := by
  intro hzero
  have hbits : c.bits = 0 := by simp [Decimal.bits, hzero]
  omega

/-- Without its trailing zeros a numeral that has been found has no more digits than were asked
for. -/
theorem digitCount_normalize_le (h0 : 0 < bits) (hcount : 0 < count)
    (hw : withDigits bits count = some c) : digitCount c.normalize.digits ≤ count := by
  have hle := (digits_of_withDigits h0 hw).1
  obtain ⟨hlast, k, hdigits, -⟩ := normalize_spec (digits_ne_zero h0 (bits_of_withDigits hw))
  have hnormal : c.normalize.digits ≤ c.digits := by
    rw [hdigits]
    exact Nat.le_mul_of_pos_right _ (Nat.pow_pos (by decide))
  rw [digitCount_le_iff hcount]
  -- only a power of ten could have a digit more, and it ends with a zero
  refine lt_of_le_of_ne (hnormal.trans hle) fun heq => hlast ?_
  rw [heq, Nat.pow_mod]
  simp [hcount.ne']

/-- Next to a number with a zero at its end there is none with a zero in the same place. -/
theorem exponent_le_of_neighbour (h0 : c.digits ≠ 0) (hzero : c.digits % 10 = 0)
    (h : d.value = c.value + 10 ^ c.exponent ∨ d.value = c.value - 10 ^ c.exponent) :
    d.exponent ≤ c.exponent := by
  obtain ⟨m, hm, hd⟩ : ∃ m : Nat, m % 10 ≠ 0 ∧ value ⟨m, c.exponent⟩ = d.value := by
    rcases h with hd | hd
    · refine ⟨c.digits + 1, by omega, ?_⟩
      rw [hd, value, value]
      push_cast
      ring
    · refine ⟨c.digits - 1, by omega, ?_⟩
      rw [hd, value, value, Nat.cast_sub (Nat.one_le_iff_ne_zero.2 h0)]
      push_cast
      ring
  exact le_exponent (d := ⟨m, c.exponent⟩) hm hd

/-- The numeral that is written for a pattern is its shortest one. -/
theorem isShortest_shortest (h0 : 0 < bits) (h : bits < infinity) :
    IsShortest bits (shortest bits) := by
  obtain ⟨count, c, hcount, hw, hshortest, hnone⟩ := exists_withDigits h0 h
  have hle := digitCount_normalize_le h0 hcount hw
  have hvalue := value_normalize c
  rw [hshortest]
  have hbelow : ∀ d : Decimal, digitCount d.digits = digitCount c.normalize.digits →
      d.digits < 10 ^ count := fun d hd => (digitCount_le_iff hcount).1 (hd ▸ hle)
  constructor
  · rw [bits_normalize]
    exact bits_of_withDigits hw
  · intro d hd
    by_contra hlt
    have hsome := withDigits_isSome h0 h (digitCount_pos d.digits) (lt_pow_digitCount d.digits) hd
    rw [hnone _ (digitCount_pos d.digits) (by omega)] at hsome
    cases hsome
  · intro d hd hdigits
    rw [hvalue]
    exact nearest_of_withDigits h0 h hcount (hbelow d hdigits) hd hw
  · intro d hd hdigits hne htie hexp
    rw [hvalue] at hne htie
    obtain ⟨heven, hdiffer⟩ := even_of_withDigits h0 h hcount (hbelow d hdigits) hd hw hne htie
    obtain ⟨-, k, hc, hk⟩ := normalize_spec (digits_ne_zero h0 (bits_of_withDigits hw))
    rcases Nat.eq_zero_or_pos k with rfl | hpos
    · rwa [hc, Nat.pow_zero, Nat.mul_one] at heven
    · have hzero : c.digits % 10 = 0 := by
        rw [hc, Nat.mul_mod, Nat.pow_mod]
        simp [hpos.ne']
      have hplace := exponent_le_of_neighbour (digits_ne_zero h0 (bits_of_withDigits hw)) hzero
        hdiffer
      omega

/-! ## There is only one -/

namespace IsShortest

/-- The shortest numeral has no zeros at its end. -/
theorem digits_mod_ten (h0 : 0 < bits) (hd : IsShortest bits d) : d.digits % 10 ≠ 0 := by
  intro hmod
  have hpos := digits_ne_zero h0 hd.reads
  have hten : 10 * (d.digits / 10) = d.digits := by omega
  have hstripped : bits = Decimal.bits ⟨d.digits / 10, d.exponent + 1⟩ := by
    rw [← bits_append_zero, hten, hd.reads]
  have hcount := digitCount_mul_ten (n := d.digits / 10) (by omega)
  rw [hten] at hcount
  have hfewest := hd.fewest ⟨d.digits / 10, d.exponent + 1⟩ hstripped.symm
  dsimp only at hfewest
  omega

variable (hd : IsShortest bits d) (hc : IsShortest bits c)

include hd hc

theorem digitCount_eq : digitCount c.digits = digitCount d.digits :=
  le_antisymm (hc.fewest d hd.reads) (hd.fewest c hc.reads)

theorem distance_eq : |c.value - Binary64.value bits| = |d.value - Binary64.value bits| :=
  le_antisymm (hc.nearest d hd.reads (digitCount_eq hd hc).symm)
    (hd.nearest c hc.reads (digitCount_eq hd hc))

/-- What lies between two shortest numerals has more digits, since it would be nearer. -/
theorem digitCount_lt_of_between {b : Decimal} (hdb : d.value < b.value)
    (hbc : b.value < c.value) : digitCount d.digits < digitCount b.digits := by
  have hreads : b.bits = bits := by
    apply le_antisymm
    · exact (bits_mono hbc.le).trans_eq hc.reads
    · exact hd.reads.ge.trans (bits_mono hdb.le)
  refine lt_of_le_of_ne (hd.fewest b hreads) fun heq => ?_
  have hmiddle : c.value - Binary64.value bits = -(d.value - Binary64.value bits) := by
    rcases abs_eq_abs.1 (distance_eq hd hc) with hsame | hsame
    · linarith
    · exact hsame
  have hnearest := hd.nearest b hreads heq.symm
  rw [abs_of_neg (by linarith)] at hnearest
  rcases abs_cases (b.value - Binary64.value bits) with ⟨habs, -⟩ | ⟨habs, -⟩ <;> linarith

variable (h0 : 0 < bits)

include h0

/-- A numeral with the lower last place does not lie above another one of as many digits. -/
theorem exponent_le_of_value_lt (hlt : d.value < c.value) : d.exponent ≤ c.exponent := by
  by_contra hexp
  have hcount := digitCount_eq hd hc
  have hd' := (value_bounds (Nat.pos_of_ne_zero (digits_ne_zero h0 hd.reads))).1
  have hc' := (value_bounds (Nat.pos_of_ne_zero (digits_ne_zero h0 hc.reads))).2
  have hpow : (10 : ℚ) ^ c.point ≤ 10 ^ (d.point - 1) := by
    apply zpow_le_zpow_right₀ (by norm_num)
    simp only [point, hcount]
    omega
  linarith

/-- Of two shortest numerals neither is less than the other. -/
theorem not_value_lt : ¬ d.value < c.value := by
  intro hlt
  have hcount := digitCount_eq hd hc
  have hexp := exponent_le_of_value_lt hd hc h0 hlt
  have hpow : (0 : ℚ) < 10 ^ d.exponent := zpow_pos (by norm_num) _
  have heven := hd.even c hc.reads hcount hlt.ne' (distance_eq hd hc) hexp
  have hroom : d.digits + 1 < 10 ^ digitCount d.digits := by
    have hdigits := lt_pow_digitCount d.digits
    have hten : 10 ^ digitCount d.digits % 2 = 0 := by
      rw [Nat.pow_mod]
      simp [(digitCount_pos d.digits).ne']
    omega
  have hnext : digitCount (d.digits + 1) ≤ digitCount d.digits :=
    (digitCount_le_iff (digitCount_pos _)).2 hroom
  have hbelow : value ⟨d.digits + 1, d.exponent⟩ < c.value := by
    rcases hexp.eq_or_lt with heq | hexp
    · have heven' := hc.even d hd.reads hcount.symm hlt.ne (distance_eq hc hd) heq.ge
      rw [value, value, ← heq, mul_lt_mul_iff_left₀ hpow, Nat.cast_lt] at hlt ⊢
      show d.digits + 1 < c.digits
      omega
    · have hbound := (value_bounds (Nat.pos_of_ne_zero (digits_ne_zero h0 hc.reads))).1
      have hpoint : (10 : ℚ) ^ ((digitCount d.digits : Int) + d.exponent) ≤ 10 ^ (c.point - 1) := by
        apply zpow_le_zpow_right₀ (by norm_num)
        simp only [point, hcount]
        omega
      refine lt_of_lt_of_le ?_ (hpoint.trans hbound)
      rw [value, zpow_add₀ (by norm_num), zpow_natCast, mul_lt_mul_iff_left₀ hpow]
      exact_mod_cast hroom
  have habove : d.value < value ⟨d.digits + 1, d.exponent⟩ := by
    rw [value, value, mul_lt_mul_iff_left₀ hpow]
    exact_mod_cast Nat.lt_succ_self _
  have hmore := digitCount_lt_of_between hd hc habove hbelow
  dsimp only at hmore
  omega

/-- There is only one shortest numeral. -/
theorem unique : c = d :=
  eq_of_value_eq (digits_mod_ten h0 hc) (digits_mod_ten h0 hd)
    (le_antisymm (not_lt.1 (not_value_lt hd hc h0)) (not_lt.1 (not_value_lt hc hd h0)))

end IsShortest

end TermCalc.Decimal
