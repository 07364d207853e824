import TermCalc.Proofs.Number.Packing

/-!
# Identities of binary64 arithmetic

What holds exactly of rounded arithmetic: zeros are neutral in sums, one and minus one in products
and quotients, and equal numbers, which may be zeros of different signs, give equal results. All of
it is read off the components, since rounding changes nothing of canonical ones.

## Main definitions

* `IsZero x`: `x` is one of the two zeros

## Main results

* `beq_iff`: numbers are equal if they are the same, or both zeros
* `roundWithAccuracy_of_canonical`: rounding gives canonical components back
* `zero_add_beq`, `sub_zero_beq`, `mul_one_beq`, `div_neg_one_beq` and the like: the identities
* `add_congr`, `sub_congr`, `mul_congr`, `div_congr`: equal operands give equal results
-/

namespace TermCalc.Binary64

open Float.Model Float.Model.UnpackedFloat

variable {x y z : Float}

/-! ## Finite numbers, zeros and equality -/

/-- The number is one of the two zeros. -/
def IsZero (x : Float) : Prop :=
  ∃ s, unpacked x = .zero s

/-- A finite number is a zero, or it has a mantissa. -/
theorem isFinite_iff : x.isFinite = true ↔
    IsZero x ∨ ∃ s m e hm, unpacked x = .finite s m e hm := by
  show (unpacked x).isFinite = true ↔ _
  unfold IsZero
  cases unpacked x with
  | finite s m e hm => exact iff_of_true rfl (.inr ⟨s, m, e, hm, rfl⟩)
  | _ => simp [UnpackedFloat.isFinite]

theorem IsZero.isFinite (h : IsZero x) : x.isFinite = true :=
  isFinite_iff.2 (.inl h)

theorem compare_sign_eq_iff (s s' : Sign) : compare s s' = .eq ↔ s = s' := by
  cases s <;> cases s' <;> simp [compare]

/-- Components compare equal if they are the same or both of a zero. -/
theorem beq_components_iff (u w : UnpackedFloat) :
    u.beq w = true ↔ u.isNaN = false ∧ u = w ∨ (∃ s, u = .zero s) ∧ ∃ s, w = .zero s := by
  rcases u with (_ | _) | _ | (_ | _) | ⟨_ | _, m, e, hm⟩ <;>
    rcases w with (_ | _) | _ | (_ | _) | ⟨_ | _, m', e', hm'⟩ <;>
    simp [UnpackedFloat.beq, UnpackedFloat.compare, UnpackedFloat.isNaN,
      compare_sign_eq_iff, and_comm]

/-- Numbers are equal if they are the same number or both are zeros, unless they are no number. -/
theorem beq_iff : (x == y) = true ↔ x.isNaN = false ∧ x = y ∨ IsZero x ∧ IsZero y := by
  have hxy : x = y ↔ unpacked x = unpacked y := ⟨congrArg unpacked, unpacked_injective⟩
  rw [hxy]
  exact beq_components_iff (unpacked x) (unpacked y)

theorem isNaN_of_isFinite (h : x.isFinite = true) : x.isNaN = false := by
  show (unpacked x).isNaN = false
  rcases isFinite_iff.1 h with ⟨s, hs⟩ | ⟨s, m, e, hm, hs⟩
  · rw [hs]
    rfl
  · rw [hs]
    rfl

/-- Finite numbers are equal if they are the same or both are zeros. -/
theorem beq_iff_of_isFinite (h : x.isFinite = true) :
    (x == y) = true ↔ x = y ∨ IsZero x ∧ IsZero y := by
  rw [beq_iff, isNaN_of_isFinite h]
  simp

theorem beq_refl_of_isFinite (h : x.isFinite = true) : (x == x) = true :=
  (beq_iff_of_isFinite h).2 (.inl rfl)

theorem IsZero.beq (hx : IsZero x) (hy : IsZero y) : (x == y) = true :=
  beq_iff.2 (.inr ⟨hx, hy⟩)

theorem beq_trans (hxy : (x == y) = true) (hyz : (y == z) = true) : (x == z) = true := by
  rcases beq_iff.1 hxy with ⟨-, rfl⟩ | ⟨hx, hy⟩
  · exact hyz
  · rcases beq_iff.1 hyz with ⟨-, rfl⟩ | ⟨-, hz⟩
    · exact hxy
    · exact hx.beq hz

theorem beq_symm (hxy : (x == y) = true) : (y == x) = true := by
  rcases beq_iff.1 hxy with ⟨-, rfl⟩ | ⟨hx, hy⟩
  · exact hxy
  · exact hy.beq hx

theorem isFinite_of_beq (h : (x == y) = true) (hx : x.isFinite = true) : y.isFinite = true := by
  rcases beq_iff.1 h with ⟨-, rfl⟩ | ⟨-, hy⟩
  · exact hx
  · exact hy.isFinite

theorem unpacked_zero : unpacked 0 = .zero .positive := by
  with_unfolding_all rfl

theorem unpacked_one : unpacked 1 = .finite .positive (2 ^ 52) (-52) (by decide) := by
  with_unfolding_all rfl

theorem unpacked_neg_one : unpacked (-1) = .finite .negative (2 ^ 52) (-52) (by decide) := by
  with_unfolding_all rfl

theorem isZero_zero : IsZero 0 :=
  ⟨_, unpacked_zero⟩

theorem beq_zero_iff : (x == 0) = true ↔ IsZero x := by
  constructor
  · intro h
    rcases beq_iff.1 h with ⟨-, rfl⟩ | ⟨hx, -⟩
    · exact isZero_zero
    · exact hx
  · intro h
    exact h.beq isZero_zero

theorem not_isZero_of_unpacked {s : Sign} {m : Nat} {e : Int} {hm : 0 < m}
    (h : unpacked x = .finite s m e hm) : ¬ IsZero x := by
  rintro ⟨s', hs'⟩
  cases h.symm.trans hs'

theorem not_isZero_one : ¬ IsZero 1 :=
  not_isZero_of_unpacked unpacked_one

theorem not_isZero_neg_one : ¬ IsZero (-1) :=
  not_isZero_of_unpacked unpacked_neg_one

/-- Only the number itself is equal to a number other than zero. -/
theorem eq_of_beq_of_not_isZero (h : (x == y) = true) (hy : ¬ IsZero y) : x = y := by
  rcases beq_iff.1 h with ⟨-, hxy⟩ | ⟨-, hzero⟩
  · exact hxy
  · exact absurd hzero hy

/-! ## Rounding what needs no rounding -/

theorem targetExponent_eq (n : Int) :
    Format.binary64.targetExponent n = max (n - 53) (-1074) :=
  rfl

/-- Canonical components have the exponent that rounding would give them. -/
theorem targetExponent_of_canonical {s : Sign} {m : Nat} {e : Int} {hm : 0 < m}
    (h : Canonical (.finite s m e hm)) :
    Format.binary64.targetExponent (totalExponent m e) = e := by
  obtain ⟨hlt, hlow, hhigh, hlong⟩ := h
  have hlog : m.log2 < 53 := (Nat.log2_lt (Nat.ne_of_gt hm)).2 hlt
  rw [targetExponent_eq, totalExponent]
  rcases hlong with hlong | rfl
  · have := (Nat.le_log2 (Nat.ne_of_gt hm)).2 hlong
    omega
  · omega

theorem totalExponent_mul_two_pow {m : Nat} (hm : 0 < m) (e : Int) (k : Nat) :
    totalExponent (m * 2 ^ k) (e - k) = totalExponent m e := by
  have hlog : (m * 2 ^ k).log2 = m.log2 + k := by
    induction k with
    | zero => rw [Nat.pow_zero, Nat.mul_one, Nat.add_zero]
    | succ k ih =>
      have hne : m * 2 ^ k ≠ 0 := Nat.ne_of_gt (Nat.mul_pos hm (Nat.two_pow_pos k))
      rw [Nat.pow_succ, Nat.mul_comm (2 ^ k), Nat.mul_left_comm, Nat.log2_two_mul hne, ih,
        Nat.add_assoc]
  rw [totalExponent, totalExponent, hlog]
  push_cast
  omega

/-- Binary zeros at the end of a mantissa are shifted out without a trace. -/
theorem shiftRight_mul_two_pow (m k : Nat) :
    (⟨m * 2 ^ k, false, false⟩ : ExtendedMantissa) >>> k = ⟨m, false, false⟩ := by
  show Nat.repeat ExtendedMantissa.shiftRightOne k _ = _
  induction k generalizing m with
  | zero => simp [Nat.repeat]
  | succ k ih =>
    rw [Nat.repeat, Nat.pow_succ, Nat.mul_comm (2 ^ k), ← Nat.mul_assoc, ih]
    simp [ExtendedMantissa.shiftRightOne]

/-- Rounding gives canonical components back, also if binary zeros have been added to the
mantissa. -/
theorem roundWithAccuracy_of_canonical {s : Sign} {m : Nat} {e : Int} {hm : 0 < m}
    (h : Canonical (.finite s m e hm)) (k : Nat) :
    roundWithAccuracy Format.binary64 s (m * 2 ^ k) (e - k) .exact = .finite s m e hm := by
  have hfirst : shiftToTargetExponent Format.binary64 (m * 2 ^ k) (e - k) .exact =
      (⟨m, false, false⟩, e) := by
    have hk : (e - (e - (k : Int))).toNat = k := by omega
    simp only [shiftToTargetExponent, shiftToExponent, totalExponent_mul_two_pow hm,
      targetExponent_of_canonical h, hk, ExtendedMantissa.ofMantissaAndAccuracy,
      shiftRight_mul_two_pow]
    congr 1
    omega
  have hsecond : shiftToTargetExponent Format.binary64 m e .exact = (⟨m, false, false⟩, e) := by
    simp only [shiftToTargetExponent, shiftToExponent, targetExponent_of_canonical h, Int.sub_self]
    congr 1
    exact Int.add_zero e
  rw [roundWithAccuracy, hfirst]
  show (let (em, e') := shiftToTargetExponent Format.binary64 m e .exact
    if h : em.mantissa = 0 then UnpackedFloat.zero s
    else .finite s em.mantissa e' (Nat.pos_of_ne_zero h)) = _
  rw [hsecond]
  exact dif_neg (Nat.ne_of_gt hm)

/-! ## Negation -/

theorem canonical_neg {u : UnpackedFloat} (h : Canonical u) : Canonical u.neg := by
  cases u <;> exact h

@[simp] theorem unpacked_neg (x : Float) : unpacked (-x) = (unpacked x).neg :=
  unpack_pack (canonical_neg (canonical_unpacked x))

theorem neg_neg (x : Float) : - -x = x := by
  apply unpacked_injective
  rw [unpacked_neg, unpacked_neg]
  rcases unpacked x with (_ | _) | _ | (_ | _) | ⟨_ | _, m, e, hm⟩ <;> rfl

theorem IsZero.neg (h : IsZero x) : IsZero (-x) := by
  obtain ⟨s, hs⟩ := h
  exact ⟨-s, by rw [unpacked_neg, hs]; rfl⟩

theorem isFinite_neg (h : x.isFinite = true) : (-x).isFinite = true := by
  rcases isFinite_iff.1 h with hx | ⟨s, m, e, hm, hx⟩
  · exact hx.neg.isFinite
  · exact isFinite_iff.2 (.inr ⟨-s, m, e, hm, by rw [unpacked_neg, hx]; rfl⟩)

theorem neg_congr (hx : x.isFinite = true) (h : (x == y) = true) : (-x == -y) = true := by
  rcases (beq_iff_of_isFinite hx).1 h with rfl | ⟨hx, hy⟩
  · exact beq_refl_of_isFinite (isFinite_neg hx)
  · exact hx.neg.beq hy.neg

/-! ## Addition and subtraction -/

theorem unpacked_add {u : UnpackedFloat}
    (h : UnpackedFloat.add Format.binary64 (unpacked x) (unpacked y) = u) (hu : Canonical u) :
    unpacked (x + y) = u :=
  (congrArg (fun u => (Float.Model.pack u).unpack) h).trans (unpack_pack hu)

theorem unpacked_sub {u : UnpackedFloat}
    (h : UnpackedFloat.sub Format.binary64 (unpacked x) (unpacked y) = u) (hu : Canonical u) :
    unpacked (x - y) = u :=
  (congrArg (fun u => (Float.Model.pack u).unpack) h).trans (unpack_pack hu)

theorem IsZero.add (hx : IsZero x) (hy : IsZero y) : IsZero (x + y) := by
  obtain ⟨s, hs⟩ := hx
  obtain ⟨s', hs'⟩ := hy
  cases s <;> cases s' <;> exact ⟨_, unpacked_add (by rw [hs, hs']; rfl) trivial⟩

theorem zero_add_beq (hx : IsZero x) (hy : y.isFinite = true) : (x + y == y) = true := by
  rcases isFinite_iff.1 hy with hzero | ⟨s, m, e, hm, hs⟩
  · exact (hx.add hzero).beq hzero
  · obtain ⟨s', hs'⟩ := hx
    have hsum : unpacked (x + y) = unpacked y :=
      unpacked_add (by rw [hs, hs']; rfl) (canonical_unpacked y)
    rw [unpacked_injective hsum]
    exact beq_refl_of_isFinite hy

/-- The order of the summands does not matter. -/
theorem add_comm (x y : Float) : x + y = y + x := by
  have hcomponents : ∀ u w : UnpackedFloat,
      UnpackedFloat.add Format.binary64 u w = UnpackedFloat.add Format.binary64 w u := by
    rintro ((_ | _) | _ | (_ | _) | ⟨s, m, e, hm⟩) ((_ | _) | _ | (_ | _) | ⟨s', m', e', hm'⟩)
    case finite.finite => simp only [UnpackedFloat.add, Int.min_comm e e', Int.add_comm]
    all_goals rfl
  exact congrArg (fun u => Float.ofModel (Float.Model.pack u))
    (hcomponents (unpacked x) (unpacked y))

theorem add_zero_beq (hx : x.isFinite = true) (hy : IsZero y) : (x + y == x) = true := by
  rw [add_comm]
  exact zero_add_beq hy hx

theorem IsZero.sub (hx : IsZero x) (hy : IsZero y) : IsZero (x - y) := by
  obtain ⟨s, hs⟩ := hx
  obtain ⟨s', hs'⟩ := hy
  cases s <;> cases s' <;> exact ⟨_, unpacked_sub (by rw [hs, hs']; rfl) trivial⟩

theorem zero_sub_beq (hx : IsZero x) (hy : y.isFinite = true) : (x - y == -y) = true := by
  rcases isFinite_iff.1 hy with hzero | ⟨s, m, e, hm, hs⟩
  · exact (hx.sub hzero).beq hzero.neg
  · obtain ⟨s', hs'⟩ := hx
    have hdifference : unpacked (x - y) = unpacked (-y) :=
      unpacked_sub (by rw [unpacked_neg, hs, hs']; rfl) (canonical_unpacked (-y))
    rw [unpacked_injective hdifference]
    exact beq_refl_of_isFinite (isFinite_neg hy)

theorem sub_zero_beq (hx : x.isFinite = true) (hy : IsZero y) : (x - y == x) = true := by
  rcases isFinite_iff.1 hx with hzero | ⟨s, m, e, hm, hs⟩
  · exact (hzero.sub hy).beq hzero
  · obtain ⟨s', hs'⟩ := hy
    have hdifference : unpacked (x - y) = unpacked x :=
      unpacked_sub (by rw [hs, hs']; rfl) (canonical_unpacked x)
    rw [unpacked_injective hdifference]
    exact beq_refl_of_isFinite hx

/-- The difference of a finite number and itself is a zero. -/
theorem isZero_sub_self (hx : x.isFinite = true) : IsZero (x - x) := by
  rcases isFinite_iff.1 hx with hzero | ⟨s, m, e, hm, hs⟩
  · exact hzero.sub hzero
  · refine ⟨.positive, unpacked_sub ?_ trivial⟩
    rw [hs, UnpackedFloat.sub]
    simp [UnpackedFloat.normalize]

/-! ## Multiplication -/

theorem unpacked_mul {u : UnpackedFloat}
    (h : UnpackedFloat.mul Format.binary64 (unpacked x) (unpacked y) = u) (hu : Canonical u) :
    unpacked (x * y) = u :=
  (congrArg (fun u => (Float.Model.pack u).unpack) h).trans (unpack_pack hu)

theorem isZero_zero_mul (hx : IsZero x) (hy : y.isFinite = true) : IsZero (x * y) := by
  obtain ⟨s, hs⟩ := hx
  rcases isFinite_iff.1 hy with ⟨s', hs'⟩ | ⟨s', m, e, hm, hs'⟩
  · exact ⟨s * s', unpacked_mul (by rw [hs, hs']; rfl) trivial⟩
  · exact ⟨s * s', unpacked_mul (by rw [hs, hs']; rfl) trivial⟩

/-- The order of the factors does not matter. -/
theorem mul_comm (x y : Float) : x * y = y * x := by
  have hsign : ∀ s s' : Sign, s * s' = s' * s := by
    intro s s'
    cases s <;> cases s' <;> rfl
  have hcomponents : ∀ u w : UnpackedFloat,
      UnpackedFloat.mul Format.binary64 u w = UnpackedFloat.mul Format.binary64 w u := by
    rintro (s | _ | s | ⟨s, m, e, hm⟩) (s' | _ | s' | ⟨s', m', e', hm'⟩)
    all_goals simp only [UnpackedFloat.mul, hsign, Nat.mul_comm, Int.add_comm]
  exact congrArg (fun u => Float.ofModel (Float.Model.pack u))
    (hcomponents (unpacked x) (unpacked y))

theorem isZero_mul_zero (hx : x.isFinite = true) (hy : IsZero y) : IsZero (x * y) := by
  rw [mul_comm]
  exact isZero_zero_mul hy hx

/-- Multiplying a mantissa by the one of the number 1 changes nothing but the sign. -/
theorem mul_unit {s s' : Sign} {m : Nat} {e : Int} {hm : 0 < m}
    (h : Canonical (.finite s m e hm)) :
    UnpackedFloat.mul Format.binary64 (.finite s m e hm) (.finite s' (2 ^ 52) (-52) (by decide)) =
      .finite (s * s') m e hm :=
  roundWithAccuracy_of_canonical (show Canonical (.finite (s * s') m e hm) from h) 52

/-- The product by a number with the mantissa of 1 is the other factor, up to the sign. -/
theorem mul_unit_beq {s' : Sign} (hy : unpacked y = .finite s' (2 ^ 52) (-52) (by decide))
    (hx : x.isFinite = true) (hz : z.isFinite = true) (hzero : IsZero x → IsZero z)
    (hsign : ∀ s m e hm, unpacked x = .finite s m e hm → unpacked z = .finite (s * s') m e hm) :
    (x * y == z) = true := by
  rcases isFinite_iff.1 hx with hx | ⟨s, m, e, hm, hs⟩
  · have hfinite : y.isFinite = true := isFinite_iff.2 (.inr ⟨_, _, _, _, hy⟩)
    exact (isZero_zero_mul hx hfinite).beq (hzero hx)
  · have hcanonical : Canonical (.finite s m e hm) := hs ▸ canonical_unpacked x
    have hproduct : unpacked (x * y) = unpacked z := by
      refine unpacked_mul ?_ (canonical_unpacked z)
      rw [hy, hs, mul_unit hcanonical, hsign s m e hm hs]
    rw [unpacked_injective hproduct]
    exact beq_refl_of_isFinite hz

theorem mul_one_beq (hx : x.isFinite = true) : (x * 1 == x) = true := by
  refine mul_unit_beq unpacked_one hx hx id fun s m e hm hs => ?_
  rw [hs]
  cases s <;> rfl

theorem mul_neg_one_beq (hx : x.isFinite = true) : (x * -1 == -x) = true := by
  refine mul_unit_beq unpacked_neg_one hx (isFinite_neg hx) .neg fun s m e hm hs => ?_
  rw [unpacked_neg, hs]
  cases s <;> rfl

/-! ## Division -/

theorem unpacked_div {u : UnpackedFloat}
    (h : UnpackedFloat.div Format.binary64 (unpacked x) (unpacked y) = u) (hu : Canonical u) :
    unpacked (x / y) = u :=
  (congrArg (fun u => (Float.Model.pack u).unpack) h).trans (unpack_pack hu)

/-- A finite quotient has not been divided by zero. -/
theorem not_isZero_of_isFinite_div (hx : x.isFinite = true) (h : (x / y).isFinite = true) :
    ¬ IsZero y := by
  rintro ⟨s', hs'⟩
  have hinfinite : (unpacked (x / y)).isFinite = false := by
    rcases isFinite_iff.1 hx with ⟨s, hs⟩ | ⟨s, m, e, hm, hs⟩
    · rw [unpacked_div (u := .notANumber) (by rw [hs, hs']; rfl) trivial]
      rfl
    · rw [unpacked_div (u := .infinity (s / s')) (by rw [hs, hs']; rfl) trivial]
      rfl
  exact Bool.noConfusion (hinfinite.symm.trans h)

theorem isZero_zero_div (hx : IsZero x) (hy : y.isFinite = true) (hne : ¬ IsZero y) :
    IsZero (x / y) := by
  obtain ⟨s, hs⟩ := hx
  rcases isFinite_iff.1 hy with hzero | ⟨s', m, e, hm, hs'⟩
  · exact absurd hzero hne
  · exact ⟨s / s', unpacked_div (by rw [hs, hs']; rfl) trivial⟩

/-- Dividing a mantissa by the one of the number 1 leaves no remainder and changes nothing but the
sign. -/
theorem div_unit {s s' : Sign} {m : Nat} {e : Int} {hm : 0 < m}
    (h : Canonical (.finite s m e hm)) :
    UnpackedFloat.div Format.binary64 (.finite s m e hm) (.finite s' (2 ^ 52) (-52) (by decide)) =
      .finite (s / s') m e hm := by
  -- one more digit than is needed is computed, unless the exponent is the least one
  obtain ⟨k, hk⟩ : ∃ k : Nat, min (e - -52) (Format.binary64.targetExponent
      (totalExponent m e - totalExponent (2 ^ 52) (-52))) = e - k := by
    have htarget := targetExponent_of_canonical h
    have htotal : totalExponent (2 ^ 52) (-52) = 1 := by decide
    rw [targetExponent_eq] at htarget ⊢
    rw [htotal]
    by_cases hleast : totalExponent m e - 1 - 53 < -1074
    · exact ⟨0, by omega⟩
    · exact ⟨1, by omega⟩
  have hcore : divCore Format.binary64 m e (2 ^ 52) (-52) = (m * 2 ^ k, e - k, .exact) := by
    have hshift : m <<< (e - -52 - (e - (k : Int))).toNat = m * 2 ^ k * 2 ^ 52 := by
      have hamount : (e - -52 - (e - (k : Int))).toNat = k + 52 := by omega
      rw [hamount, Nat.shiftLeft_eq, Nat.pow_add, Nat.mul_assoc]
    simp only [divCore, hk, hshift, Nat.mul_div_cancel _ (Nat.two_pow_pos 52), Nat.mul_mod_left]
    rfl
  rw [UnpackedFloat.div, hcore]
  exact roundWithAccuracy_of_canonical (show Canonical (.finite (s / s') m e hm) from h) k

/-- The quotient by a number with the mantissa of 1 is the dividend, up to the sign. -/
theorem div_unit_beq {s' : Sign} (hy : unpacked y = .finite s' (2 ^ 52) (-52) (by decide))
    (hx : x.isFinite = true) (hz : z.isFinite = true) (hzero : IsZero x → IsZero z)
    (hsign : ∀ s m e hm, unpacked x = .finite s m e hm → unpacked z = .finite (s / s') m e hm) :
    (x / y == z) = true := by
  rcases isFinite_iff.1 hx with hx | ⟨s, m, e, hm, hs⟩
  · have hfinite : y.isFinite = true := isFinite_iff.2 (.inr ⟨_, _, _, _, hy⟩)
    exact (isZero_zero_div hx hfinite (not_isZero_of_unpacked hy)).beq (hzero hx)
  · have hcanonical : Canonical (.finite s m e hm) := hs ▸ canonical_unpacked x
    have hquotient : unpacked (x / y) = unpacked z := by
      refine unpacked_div ?_ (canonical_unpacked z)
      rw [hy, hs, div_unit hcanonical, hsign s m e hm hs]
    rw [unpacked_injective hquotient]
    exact beq_refl_of_isFinite hz

theorem div_one_beq (hx : x.isFinite = true) : (x / 1 == x) = true := by
  refine div_unit_beq unpacked_one hx hx id fun s m e hm hs => ?_
  rw [hs]
  cases s <;> rfl

theorem div_neg_one_beq (hx : x.isFinite = true) : (x / -1 == -x) = true := by
  refine div_unit_beq unpacked_neg_one hx (isFinite_neg hx) .neg fun s m e hm hs => ?_
  rw [unpacked_neg, hs]
  cases s <;> rfl

/-! ## Equal operands -/

variable {x' y' : Float}

theorem add_congr (hx : (x == x') = true) (hy : (y == y') = true) (hfx : x.isFinite = true)
    (hfy : y.isFinite = true) (h : (x + y).isFinite = true) : (x + y == x' + y') = true := by
  have hfy' := isFinite_of_beq hy hfy
  rcases (beq_iff_of_isFinite hfx).1 hx with rfl | ⟨hzx, hzx'⟩
  · rcases (beq_iff_of_isFinite hfy).1 hy with rfl | ⟨hzy, hzy'⟩
    · exact beq_refl_of_isFinite h
    · exact beq_trans (add_zero_beq hfx hzy) (beq_symm (add_zero_beq hfx hzy'))
  · exact beq_trans (zero_add_beq hzx hfy) (beq_trans hy (beq_symm (zero_add_beq hzx' hfy')))

theorem sub_congr (hx : (x == x') = true) (hy : (y == y') = true) (hfx : x.isFinite = true)
    (hfy : y.isFinite = true) (h : (x - y).isFinite = true) : (x - y == x' - y') = true := by
  have hfy' := isFinite_of_beq hy hfy
  rcases (beq_iff_of_isFinite hfx).1 hx with rfl | ⟨hzx, hzx'⟩
  · rcases (beq_iff_of_isFinite hfy).1 hy with rfl | ⟨hzy, hzy'⟩
    · exact beq_refl_of_isFinite h
    · exact beq_trans (sub_zero_beq hfx hzy) (beq_symm (sub_zero_beq hfx hzy'))
  · exact beq_trans (zero_sub_beq hzx hfy)
      (beq_trans (neg_congr hfy hy) (beq_symm (zero_sub_beq hzx' hfy')))

theorem mul_congr (hx : (x == x') = true) (hy : (y == y') = true) (hfx : x.isFinite = true)
    (hfy : y.isFinite = true) (h : (x * y).isFinite = true) : (x * y == x' * y') = true := by
  have hfy' := isFinite_of_beq hy hfy
  rcases (beq_iff_of_isFinite hfx).1 hx with rfl | ⟨hzx, hzx'⟩
  · rcases (beq_iff_of_isFinite hfy).1 hy with rfl | ⟨hzy, hzy'⟩
    · exact beq_refl_of_isFinite h
    · exact (isZero_mul_zero hfx hzy).beq (isZero_mul_zero hfx hzy')
  · exact (isZero_zero_mul hzx hfy).beq (isZero_zero_mul hzx' hfy')

theorem div_congr (hx : (x == x') = true) (hy : (y == y') = true) (hfx : x.isFinite = true)
    (hfy : y.isFinite = true) (h : (x / y).isFinite = true) : (x / y == x' / y') = true := by
  have hne := not_isZero_of_isFinite_div hfx h
  rcases (beq_iff_of_isFinite hfy).1 hy with rfl | ⟨hzy, -⟩
  · rcases (beq_iff_of_isFinite hfx).1 hx with rfl | ⟨hzx, hzx'⟩
    · exact beq_refl_of_isFinite h
    · exact (isZero_zero_div hzx hfy hne).beq (isZero_zero_div hzx' hfy hne)
  · exact absurd hzy hne

end TermCalc.Binary64
