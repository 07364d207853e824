import TermCalc.Number.Decimal
import TermCalc.Proofs.Number.Rounding

/-!
# The shortest numeral reads back

A numeral with a zero more at its end, and an exponent less by one, reads as the same pattern. So
trailing zeros may be stripped, and the numeral that is found for a pattern reads as that pattern:
either it has been tried, or it is exactly the number.

## Main results

* `Decimal.bits_append_zeros`: zeros at the end count as an exponent
* `Decimal.bits_of_ratio`: a numeral that is exactly a pattern reads as it
* `Decimal.bits_shortest`: the shortest numeral of a pattern reads as it
-/

namespace TermCalc.Decimal

/-! ## Counting digits -/

theorem digitCount_pos (n : Nat) : 0 < digitCount n :=
  Nat.length_toDigits_pos

theorem digitCount_le_iff {n k : Nat} (hk : 0 < k) : digitCount n ≤ k ↔ n < 10 ^ k :=
  Nat.length_toDigits_le_iff (by decide) hk

theorem lt_pow_digitCount (n : Nat) : n < 10 ^ digitCount n :=
  (digitCount_le_iff (digitCount_pos n)).1 (Nat.le_refl _)

theorem digitCount_mul_ten {n : Nat} (hn : 0 < n) : digitCount (10 * n) = digitCount n + 1 := by
  have hlast : 10 ≤ 10 * n := Nat.le_mul_of_pos_right 10 hn
  rw [digitCount, Nat.toDigits_of_base_le (by decide) hlast, Nat.mul_div_cancel_left n (by decide),
    List.length_append]
  rfl

/-! ## Zeros at the end -/

theorem ratio_den_pos (d : Decimal) : 0 < d.ratio.2 := by
  rw [ratio]
  split
  · exact Nat.one_pos
  · exact Nat.pow_pos (by decide)

/-- One more zero at the end is a factor common to both numbers of the ratio, or none at all. -/
theorem nearest_ratio_zero (n : Nat) (e : Int) :
    Binary64.nearest (ratio ⟨10 * n, e⟩).1 (ratio ⟨10 * n, e⟩).2 =
      Binary64.nearest (ratio ⟨n, e + 1⟩).1 (ratio ⟨n, e + 1⟩).2 := by
  rcases e with e | (_ | e)
  · show Binary64.nearest (10 * n * 10 ^ e) 1 = Binary64.nearest (n * 10 ^ (e + 1)) 1
    rw [Nat.pow_succ', Nat.mul_left_comm, Nat.mul_assoc]
  · show Binary64.nearest (10 * n) (10 * 1) = Binary64.nearest (n * 1) 1
    rw [Binary64.nearest_mul_left (by decide) (by decide), Nat.mul_one]
  · show Binary64.nearest (10 * n) (10 ^ (e + 2)) = Binary64.nearest n (10 ^ (e + 1))
    rw [Nat.pow_succ' (n := e + 1)]
    exact Binary64.nearest_mul_left (by decide) (Nat.pow_pos (by decide)) n

theorem bits_append_zero (n : Nat) (e : Int) : bits ⟨10 * n, e⟩ = bits ⟨n, e + 1⟩ := by
  rcases Nat.eq_zero_or_pos n with rfl | hn
  · simp only [bits, Nat.mul_zero, beq_self_eq_true, Bool.true_or, if_true]
  · have hpoint : point ⟨10 * n, e⟩ = point ⟨n, e + 1⟩ := by
      simp only [point, digitCount_mul_ten hn]
      omega
    have hzero : (10 * n == 0) = (n == 0) := by
      rw [beq_false_of_ne (Nat.ne_of_gt hn), beq_false_of_ne (by omega)]
    simp only [bits, hpoint, hzero, nearest_ratio_zero]

/-- Zeros at the end count as an exponent. -/
theorem bits_append_zeros (n k : Nat) (e : Int) : bits ⟨n * 10 ^ k, e⟩ = bits ⟨n, e + k⟩ := by
  induction k generalizing e with
  | zero => simp
  | succ k ih =>
    rw [Nat.pow_succ', Nat.mul_left_comm, bits_append_zero, ih]
    congr 2
    omega

theorem bits_strip (fuel : Nat) (d : Decimal) : (d.strip fuel).bits = d.bits := by
  induction fuel generalizing d with
  | zero => rfl
  | succ fuel ih =>
    rw [strip]
    split
    next h =>
      obtain ⟨hlast, -⟩ := Bool.and_eq_true_iff.1 h
      have hten : 10 * (d.digits / 10) = d.digits :=
        Nat.mul_div_cancel' (Nat.dvd_of_mod_eq_zero (beq_iff_eq.1 hlast))
      rw [ih, ← bits_append_zero, hten]
    next => rfl

theorem bits_normalize (d : Decimal) : d.normalize.bits = d.bits :=
  bits_strip _ d

/-! ## Numerals of a pattern -/

variable {bits : Nat}

/-- A numeral that is exactly a finite pattern reads as it. -/
theorem bits_of_ratio {d : Decimal} (hd : 0 < d.digits) (hpoint : d.point.natAbs ≤ 330)
    (hbits : bits < Binary64.infinity)
    (hratio : d.ratio.1 * (Binary64.ratio bits).2 = (Binary64.ratio bits).1 * d.ratio.2) :
    d.bits = bits := by
  have hzero : (d.digits == 0) = false := beq_false_of_ne (Nat.ne_of_gt hd)
  have hlow : ¬ d.point < -330 := by omega
  have hhigh : ¬ d.point > 330 := by omega
  simp only [Decimal.bits, hzero, hlow, hhigh, decide_false, Bool.or_self, Bool.false_eq_true,
    if_false]
  rw [Binary64.nearest_congr d.ratio_den_pos (Binary64.ratio_den_pos bits) hratio,
    Binary64.nearest_ratio hbits]

/-- Twenty-three binary digits are fewer than seven decimal ones. -/
theorem two_pow_lt_ten_pow (e : Nat) : 2 ^ e < 10 ^ (7 * (e / 23) + 7) := by
  have hq : (2 ^ 23) ^ (e / 23) ≤ (10 ^ 7) ^ (e / 23) := Nat.pow_le_pow_left (by decide) _
  have hr : 2 ^ (e % 23) < 10 ^ 7 :=
    (Nat.pow_lt_pow_right (by decide) (Nat.mod_lt e (by decide))).trans (by decide)
  calc 2 ^ e = (2 ^ 23) ^ (e / 23) * 2 ^ (e % 23) := by
        rw [← Nat.pow_mul, ← Nat.pow_add, Nat.div_add_mod]
    _ < (10 ^ 7) ^ (e / 23) * 10 ^ 7 :=
        Nat.mul_lt_mul_of_le_of_lt hq hr (Nat.pow_pos (by decide))
    _ = 10 ^ (7 * (e / 23) + 7) := by rw [← Nat.pow_mul, ← Nat.pow_add]

/-- The point of the numeral of a whole number. -/
theorem point_natAbs_le_of_whole {s e : Nat} (hs : s < 2 ^ 53) (he : e ≤ 971) :
    (point ⟨s * 2 ^ e, 0⟩).natAbs ≤ 330 := by
  have hlt : s * 2 ^ e < 2 ^ (53 + e) := by
    rw [Nat.pow_add]
    exact Nat.mul_lt_mul_of_pos_right hs (Nat.two_pow_pos e)
  have hcount : digitCount (s * 2 ^ e) ≤ 7 * ((53 + e) / 23) + 7 :=
    (digitCount_le_iff (by omega)).2 (hlt.trans (two_pow_lt_ten_pow _))
  simp only [point]
  omega

/-- The point of the numeral of a fraction whose denominator is a power of two. -/
theorem point_natAbs_le_of_fraction {s e : Nat} (h0 : 0 < s) (hs : s < 2 ^ 53) (he : e < 1074) :
    (point ⟨s * 5 ^ (e + 1), .negSucc e⟩).natAbs ≤ 330 := by
  have hfew : s * 5 ^ (e + 1) < 10 ^ (16 + (e + 1)) := by
    rw [Nat.pow_add (m := 16)]
    apply Nat.mul_lt_mul_of_lt_of_le (hs.trans (by decide))
    · exact Nat.pow_le_pow_left (by decide) (e + 1)
    · exact Nat.pow_pos (by decide)
  have hhigh : digitCount (s * 5 ^ (e + 1)) ≤ 16 + (e + 1) := (digitCount_le_iff (by omega)).2 hfew
  have hmany : 10 ^ (e + 1) <
      10 ^ (7 * ((e + 1) / 23) + 7 + digitCount (s * 5 ^ (e + 1))) := by
    have hdigits := lt_pow_digitCount (s * 5 ^ (e + 1))
    have hfive : 5 ^ (e + 1) ≤ s * 5 ^ (e + 1) := Nat.le_mul_of_pos_left _ h0
    have hten : 10 ^ (e + 1) = 2 ^ (e + 1) * 5 ^ (e + 1) := Nat.mul_pow 2 5 (e + 1)
    rw [hten, Nat.pow_add 10 _ (digitCount _)]
    exact Nat.mul_lt_mul_of_lt_of_le (two_pow_lt_ten_pow _) (hfive.trans hdigits.le)
      (Nat.pow_pos (by decide))
  have hlow : e + 1 < 7 * ((e + 1) / 23) + 7 + digitCount (s * 5 ^ (e + 1)) :=
    (Nat.pow_lt_pow_iff_right (by decide)).1 hmany
  simp only [point]
  omega

/-- The exact numeral of a pattern reads as it. -/
theorem bits_exact (h0 : 0 < bits) (h : bits < Binary64.infinity) : (exact bits).bits = bits := by
  obtain ⟨-, hleast, hshort, -⟩ := Binary64.pattern_eq bits
  have hs := Binary64.significand_pos h0
  have hgreatest := Binary64.exponent_le h
  rw [exact]
  split
  next e he =>
    have he' : e ≤ 971 := by
      rw [he] at hgreatest
      exact Int.ofNat_le.1 hgreatest
    apply bits_of_ratio (Nat.mul_pos hs (Nat.two_pow_pos e)) (point_natAbs_le_of_whole hshort he') h
    simp only [ratio, Binary64.ratio, he]
    exact Nat.mul_one _
  next e he =>
    have he' : e < 1074 := by
      rw [he] at hleast
      omega
    have hfive : 0 < 5 ^ (e + 1) := Nat.pow_pos (by decide)
    have hten : 10 ^ (e + 1) = 5 ^ (e + 1) * 2 ^ (e + 1) := Nat.mul_pow 5 2 (e + 1)
    apply bits_of_ratio (Nat.mul_pos hs hfive) (point_natAbs_le_of_fraction hs hshort he') h
    simp only [ratio, Binary64.ratio, he, Nat.pow_eq]
    rw [hten, Nat.mul_assoc]

/-- A numeral that has been tried reads as the pattern it has been tried for. -/
theorem bits_of_withDigits {count : Nat} {d : Decimal} (h : withDigits bits count = some d) :
    d.bits = bits := by
  rw [withDigits] at h
  dsimp only at h
  split at h
  next hlow hup =>
    split at h
    · exact Option.some.inj h ▸ beq_iff_eq.1 hlow
    · exact Option.some.inj h ▸ beq_iff_eq.1 hup
    · split at h
      · exact Option.some.inj h ▸ beq_iff_eq.1 hlow
      · exact Option.some.inj h ▸ beq_iff_eq.1 hup
  next hlow _ => exact Option.some.inj h ▸ beq_iff_eq.1 hlow
  next _ hup => exact Option.some.inj h ▸ beq_iff_eq.1 hup
  next => cases h

/-- The shortest numeral of a pattern reads as it. -/
theorem bits_shortest (h0 : 0 < bits) (h : bits < Binary64.infinity) :
    (shortest bits).bits = bits := by
  rw [shortest, bits_normalize]
  cases hd : (List.range 17).findSome? fun n => withDigits bits (n + 1) with
  | none => exact bits_exact h0 h
  | some d =>
    obtain ⟨n, -, hn⟩ := List.exists_of_findSome?_eq_some hd
    exact bits_of_withDigits hn

end TermCalc.Decimal
