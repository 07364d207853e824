import TermCalc.Proofs.Number.Arithmetic
import TermCalc.Term.Equivalent

/-!
# Arithmetic up to the sign of zero

Numbers that count as the same in terms are the same but for the sign of a zero, since there is one
NaN only. What becomes of a zero in a sum, a difference or a product shows its sign at most in the
sign of a zero, so these operations respect being the same, and so does negation. Division does not:
its results for the two zeros are infinities of different signs.

## Main results

* `sameNumber_iff_eq_or_isZero`: what numbers that count as the same have in common
* `sameNumber_neg`, `sameNumber_add`, `sameNumber_sub`, `sameNumber_mul`: same operands give the
  same results
-/

namespace TermCalc

open Binary64 Float.Model

variable {x x' y y' : Float}

namespace Binary64

theorem unpacked_of_isNaN (h : x.isNaN = true) : unpacked x = .notANumber := by
  have hcomponents : (unpacked x).isNaN = true := h
  cases hx : unpacked x with
  | notANumber => rfl
  | _ =>
    rw [hx] at hcomponents
    exact Bool.noConfusion hcomponents

end Binary64

/-- Numbers count as the same exactly if they are the same or both are zeros. -/
theorem sameNumber_iff_eq_or_isZero : sameNumber x y = true ↔ x = y ∨ IsZero x ∧ IsZero y := by
  rw [sameNumber, Bool.or_eq_true, Bool.and_eq_true, beq_iff]
  constructor
  · rintro ((⟨-, h⟩ | h) | ⟨hx, hy⟩)
    · exact .inl h
    · exact .inr h
    · exact .inl (unpacked_injective ((unpacked_of_isNaN hx).trans (unpacked_of_isNaN hy).symm))
  · rintro (rfl | h)
    · cases hx : x.isNaN with
      | false => exact .inl (.inl ⟨rfl, rfl⟩)
      | true => exact .inr ⟨rfl, rfl⟩
    · exact .inl (.inr h)

theorem sameNumber_of_isZero (hx : IsZero x) (hy : IsZero y) : sameNumber x y = true :=
  sameNumber_iff_eq_or_isZero.2 (.inr ⟨hx, hy⟩)

theorem sameNumber_of_unpacked (h : unpacked x = unpacked y) : sameNumber x y = true :=
  sameNumber_iff_eq_or_isZero.2 (.inl (unpacked_injective h))

theorem sameNumber_neg (h : sameNumber x y = true) : sameNumber (-x) (-y) = true := by
  rcases sameNumber_iff_eq_or_isZero.1 h with rfl | ⟨hx, hy⟩
  · exact sameNumber_iff_eq_or_isZero.2 (.inl rfl)
  · exact sameNumber_of_isZero hx.neg hy.neg

/-! ## Operations on two numbers -/

/-- An operation respects being the same if it does so for zeros on either side and makes a zero of
two zeros. -/
theorem sameNumber_of_zeros {op : Float → Float → Float}
    (hzero : ∀ {x y}, IsZero x → IsZero y → IsZero (op x y))
    (hleft : ∀ {x x'} y, IsZero x → IsZero x' → sameNumber (op x y) (op x' y) = true)
    (hright : ∀ {y y'} x, IsZero y → IsZero y' → sameNumber (op x y) (op x y') = true)
    (hx : sameNumber x x' = true) (hy : sameNumber y y' = true) :
    sameNumber (op x y) (op x' y') = true := by
  rcases sameNumber_iff_eq_or_isZero.1 hx with rfl | ⟨hx, hx'⟩
  · rcases sameNumber_iff_eq_or_isZero.1 hy with rfl | ⟨hy, hy'⟩
    · exact sameNumber_iff_eq_or_isZero.2 (.inl rfl)
    · exact hright x hy hy'
  · rcases sameNumber_iff_eq_or_isZero.1 hy with rfl | ⟨hy, hy'⟩
    · exact hleft y hx hx'
    · exact sameNumber_of_isZero (hzero hx hy) (hzero hx' hy')

/-- A zero leaves the other summand as it is, unless that is a zero too. -/
theorem sameNumber_zero_add (y : Float) (hx : IsZero x) (hx' : IsZero x') :
    sameNumber (x + y) (x' + y) = true := by
  by_cases hy : IsZero y
  · exact sameNumber_of_isZero (hx.add hy) (hx'.add hy)
  · have hsum : ∀ {z : Float}, IsZero z → unpacked (z + y) = unpacked y := by
      rintro z ⟨s, hs⟩
      refine unpacked_add ?_ (canonical_unpacked y)
      cases hcomponents : unpacked y with
      | zero s' => exact absurd ⟨s', hcomponents⟩ hy
      | _ =>
        rw [hs]
        rfl
    exact sameNumber_of_unpacked ((hsum hx).trans (hsum hx').symm)

theorem sameNumber_add (hx : sameNumber x x' = true) (hy : sameNumber y y' = true) :
    sameNumber (x + y) (x' + y') = true := by
  refine sameNumber_of_zeros IsZero.add sameNumber_zero_add (fun {y y'} x hy hy' => ?_) hx hy
  rw [add_comm x, add_comm x]
  exact sameNumber_zero_add x hy hy'

/-- A number that is subtracted from a zero is negated, unless it is a zero too. -/
theorem sameNumber_zero_sub (y : Float) (hx : IsZero x) (hx' : IsZero x') :
    sameNumber (x - y) (x' - y) = true := by
  by_cases hy : IsZero y
  · exact sameNumber_of_isZero (hx.sub hy) (hx'.sub hy)
  · have hdifference : ∀ {z : Float}, IsZero z → unpacked (z - y) = (unpacked y).neg := by
      rintro z ⟨s, hs⟩
      refine unpacked_sub ?_ (canonical_neg (canonical_unpacked y))
      cases hcomponents : unpacked y with
      | zero s' => exact absurd ⟨s', hcomponents⟩ hy
      | _ =>
        rw [hs]
        rfl
    exact sameNumber_of_unpacked ((hdifference hx).trans (hdifference hx').symm)

/-- A zero that is subtracted drops out, unless the other number is a zero too. -/
theorem sameNumber_sub_zero (x : Float) (hy : IsZero y) (hy' : IsZero y') :
    sameNumber (x - y) (x - y') = true := by
  by_cases hx : IsZero x
  · exact sameNumber_of_isZero (hx.sub hy) (hx.sub hy')
  · have hdifference : ∀ {z : Float}, IsZero z → unpacked (x - z) = unpacked x := by
      rintro z ⟨s, hs⟩
      refine unpacked_sub ?_ (canonical_unpacked x)
      cases hcomponents : unpacked x with
      | zero s' => exact absurd ⟨s', hcomponents⟩ hx
      | _ =>
        rw [hs]
        rfl
    exact sameNumber_of_unpacked ((hdifference hy).trans (hdifference hy').symm)

theorem sameNumber_sub (hx : sameNumber x x' = true) (hy : sameNumber y y' = true) :
    sameNumber (x - y) (x' - y') = true :=
  sameNumber_of_zeros IsZero.sub sameNumber_zero_sub sameNumber_sub_zero hx hy

/-- A zero makes a zero of every finite factor, and NaN of every other one. -/
theorem sameNumber_zero_mul (y : Float) (hx : IsZero x) (hx' : IsZero x') :
    sameNumber (x * y) (x' * y) = true := by
  by_cases hy : y.isFinite = true
  · exact sameNumber_of_isZero (isZero_zero_mul hx hy) (isZero_zero_mul hx' hy)
  · have hproduct : ∀ {z : Float}, IsZero z → unpacked (z * y) = .notANumber := by
      rintro z ⟨s, hs⟩
      refine unpacked_mul ?_ trivial
      cases hcomponents : unpacked y with
      | zero s' => exact absurd (IsZero.isFinite ⟨s', hcomponents⟩) hy
      | finite s' m e hm =>
        exact absurd (isFinite_iff.2 (.inr ⟨s', m, e, hm, hcomponents⟩)) hy
      | _ =>
        rw [hs]
        rfl
    exact sameNumber_of_unpacked ((hproduct hx).trans (hproduct hx').symm)

theorem sameNumber_mul (hx : sameNumber x x' = true) (hy : sameNumber y y' = true) :
    sameNumber (x * y) (x' * y') = true := by
  refine sameNumber_of_zeros (fun hx hy => isZero_zero_mul hx hy.isFinite) sameNumber_zero_mul
    (fun {y y'} x hy hy' => ?_) hx hy
  rw [mul_comm x, mul_comm x]
  exact sameNumber_zero_mul x hy hy'

-- the quotients by the two zeros are infinities of different signs
example : sameNumber 0 (-0) = true ∧ sameNumber (1 / 0) (1 / -0) = false := by
  decide +kernel

end TermCalc
