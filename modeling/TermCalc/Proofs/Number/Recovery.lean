import TermCalc.Proofs.Number.Display
import TermCalc.Proofs.Token.Scan

/-!
# Displayed numbers are read back exactly

Where an operand is expected, the text of a number as a result is a single constant, with its minus
sign if it has one, up to whatever ends a numeral. The constant denotes the very number that has
been shown: the same pattern with the same sign, except that the two zeros are shown alike.

## Main results

* `NumberText.lexeme?_eq`: a text of a number is one constant where an operand is expected
* `NumberText.toBits_eq`: a text of a number other than zero denotes that number
* `displayNumber_recovers`: what a number is shown as is one constant, which denotes the number
-/

namespace TermCalc

open Literal (minus)

variable {x : Float} {cs rest : List Char}

/-! ## One constant -/

/-- A text of a number is one constant where an operand is expected. -/
theorem NumberText.lexeme?_eq (h : NumberText x cs) (hr : Lexer.Boundary rest) :
    Lexer.lexeme? true (cs ++ rest) = some (.constant, cs.length) := by
  cases h with
  | nan => exact Lexer.lexeme?_nan
  | @number negative cs y hx hcs =>
    have hunsigned := Lexer.unsigned_of_ascii hcs
    cases negative with
    | false => exact Lexer.lexeme?_unsigned hunsigned hr
    | true => exact Lexer.lexeme?_negative hunsigned hr

/-- The constant takes up the text and leaves what follows it. -/
theorem NumberText.scan_eq (h : NumberText x cs) (hr : Lexer.Boundary rest) (position : Nat) :
    Lexer.scan true position (cs ++ rest) =
      (⟨.constant, String.ofList cs, position⟩ ::
          (Lexer.scan false (position + cs.length) rest).1,
        (Lexer.scan false (position + cs.length) rest).2) := by
  have hscan := Lexer.scan_of_lexeme? position (h.lexeme?_eq hr)
  rw [List.take_left, List.drop_left] at hscan
  exact hscan

/-! ## The number that the constant denotes -/

/-- A text of a number other than zero denotes that number. -/
theorem NumberText.toBits_eq (h : NumberText x cs) (hx : x.isNaN = false)
    (hzero : (x == 0) = false) :
    ∃ y, number? (String.ofList cs) = some y ∧ y.toBits = x.toBits := by
  cases h with
  | nan hnan => exact Bool.noConfusion (hx.symm.trans hnan)
  | @number negative cs y _ _ hread hsame =>
    have hequal : (y == x) = true := by
      rw [sameNumber, hx, Bool.and_false, Bool.or_false] at hsame
      exact hsame
    have hne : ¬ Binary64.IsZero x := fun h =>
      Bool.noConfusion (hzero.symm.trans (Binary64.beq_zero_iff.2 h))
    exact ⟨y, hread, congrArg Float.toBits (Binary64.eq_of_beq_of_not_isZero hequal hne)⟩

/-- Both zeros are shown as a zero without a sign. -/
theorem displayNumber_of_isZero (h : Binary64.IsZero x) : displayNumber x = "0" := by
  have hpattern : Binary64.ofMagnitude false 0 = x ∨ Binary64.ofMagnitude true 0 = x := by
    obtain ⟨s, hs⟩ := h
    cases s with
    | positive => exact .inl (Binary64.unpacked_injective (by rw [hs]; with_unfolding_all rfl))
    | negative => exact .inr (Binary64.unpacked_injective (by rw [hs]; with_unfolding_all rfl))
  rcases hpattern with rfl | rfl <;> decide +kernel

theorem displayNumber_of_isNaN (h : x.isNaN = true) : displayNumber x = "NaN" := by
  have hwhole : displayWhole? x = none := by
    unfold displayWhole?
    rw [h]
    rfl
  rw [displayNumber, hwhole, Option.getD_none, Layout.write, if_pos h]
  rfl

/-- A number that is none is no zero. -/
theorem Binary64.beq_zero_of_isNaN (h : x.isNaN = true) : (x == 0) = false := by
  rw [← Bool.not_eq_true]
  intro hzero
  have hfinite := (beq_zero_iff.1 hzero).isFinite
  exact Bool.noConfusion (h.symm.trans (isNaN_of_isFinite hfinite))

/-- What a number is shown as denotes the number, with one zero for both. -/
theorem number?_displayNumber (x : Float) :
    ∃ y, number? (displayNumber x) = some y ∧ (x.isNaN = true → y.isNaN = true) ∧
      ((x == 0) = true → y.toBits = 0) ∧
      (x.isNaN = false → (x == 0) = false → y.toBits = x.toBits) := by
  cases hx : x.isNaN with
  | true =>
    have hread : number? "NaN" = some (0.0 / 0.0) ∧ (0.0 / 0.0 : Float).isNaN = true := by
      decide +kernel
    rw [displayNumber_of_isNaN hx, Binary64.beq_zero_of_isNaN hx]
    exact ⟨_, hread.1, fun _ => hread.2, nofun, nofun⟩
  | false =>
    cases hzero : x == 0 with
    | true =>
      have hread : number? "0" = some 0 ∧ (0 : Float).toBits = 0 := by decide +kernel
      rw [displayNumber_of_isZero (Binary64.beq_zero_iff.1 hzero)]
      exact ⟨_, hread.1, nofun, fun _ => hread.2, nofun⟩
    | false =>
      obtain ⟨y, hread, hbits⟩ := (numberText_displayNumber x).toBits_eq hx hzero
      rw [String.ofList_toList] at hread
      exact ⟨y, hread, nofun, nofun, fun _ _ => hbits⟩

/-! ## Both together -/

/-- The text of a number is cut off as one constant in front of anything that ends a numeral. -/
theorem scan_displayNumber (x : Float) (position : Nat) (hr : Lexer.Boundary rest) :
    Lexer.scan true position ((displayNumber x).toList ++ rest) =
      (⟨.constant, displayNumber x, position⟩ ::
          (Lexer.scan false (position + (displayNumber x).length) rest).1,
        (Lexer.scan false (position + (displayNumber x).length) rest).2) := by
  have h := (numberText_displayNumber x).scan_eq hr position
  rwa [String.ofList_toList, String.length_toList] at h

/-- Where an operand is expected, what a number is shown as is one constant, by itself and in front
of anything that ends a numeral. The constant denotes the number: it is no number if the number is
none, zero without a sign if the number is one of the zeros, and else the same word of 64 bits. -/
theorem displayNumber_recovers (x : Float) :
    Token.ofSource? (displayNumber x) = .ok [⟨.constant, displayNumber x, 0⟩] ∧
      (∀ position rest, Lexer.Boundary rest →
        Lexer.scan true position ((displayNumber x).toList ++ rest) =
          (⟨.constant, displayNumber x, position⟩ ::
              (Lexer.scan false (position + (displayNumber x).length) rest).1,
            (Lexer.scan false (position + (displayNumber x).length) rest).2)) ∧
      ∃ y, number? (displayNumber x) = some y ∧ (x.isNaN = true → y.isNaN = true) ∧
        ((x == 0) = true → y.toBits = 0) ∧
        (x.isNaN = false → (x == 0) = false → y.toBits = x.toBits) := by
  refine ⟨?_, fun position rest hr => scan_displayNumber x position hr, number?_displayNumber x⟩
  have halone := scan_displayNumber x 0 Lexer.boundary_nil
  rw [List.append_nil, Lexer.scan_nil] at halone
  rw [Token.ofSource?, halone]
  rfl

/-- Negative zero loses its sign. -/
theorem displayNumber_recovers_negative_zero :
    ∃ y, number? (displayNumber (-0.0)) = some y ∧ y.toBits = 0 := by
  obtain ⟨-, -, y, hread, -, hzero, -⟩ := displayNumber_recovers (-0.0)
  exact ⟨y, hread, hzero (by decide +kernel)⟩

end TermCalc
