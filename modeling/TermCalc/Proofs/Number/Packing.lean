import Mathlib
import TermCalc.Number.Binary64

/-!
# Binary64 numbers and their components

A number is packed into 64 bits and computed with in components: a sign, a mantissa and an exponent.
The components of a number are in canonical form, and packing loses nothing of canonical
components, so a number and its components determine each other.

## Main definitions

* `unpacked x`: the components of `x`
* `Canonical u`: the mantissa of `u` is as long as it can be, and the exponent is in range

## Main results

* `canonical_unpacked`: the components of a number are canonical
* `unpack_pack`: packing canonical components and unpacking them gives them back
* `pack_unpack`: unpacking a number and packing its components gives it back
* `unpacked_injective`: different numbers have different components
-/

namespace TermCalc.Binary64

open Float.Model Float.Model.UnpackedFloat

/-- The components of a number. -/
def unpacked (x : Float) : UnpackedFloat :=
  x.toModel.unpack

/-- The components of a finite number other than zero are canonical if the mantissa has 53 binary
digits, or fewer with the least exponent. All other components are. -/
def Canonical : UnpackedFloat → Prop
  | .finite _ m e _ => m < 2 ^ 53 ∧ -1074 ≤ e ∧ e ≤ 971 ∧ (2 ^ 52 ≤ m ∨ e = -1074)
  | _ => True

/-! ## The fields of a packed number -/

@[simp] theorem ofBitVec_toBitVec (s : Sign) : Sign.ofBitVec s.toBitVec = s := by
  cases s <;> rfl

theorem toBitVec_ofBitVec (b : BitVec 1) : (Sign.ofBitVec b).toBitVec = b := by
  revert b
  decide

@[simp] theorem unpackSign_packComponents {spec : Format} (s : Sign)
    (e : BitVec spec.exponentBits) (m : BitVec spec.mantissaBitsWithoutImplicit) :
    unpackSign (packComponents spec s e m) = s.toBitVec := by
  ext i hi
  obtain rfl : i = 0 := by omega
  simp [unpackSign, packComponents, BitVec.getLsbD_append, BitVec.getElem_append]

/-- A packed number consists of its three fields. -/
theorem packComponents_fields (b : BitVec Format.binary64.numBits) :
    packComponents Format.binary64 (Sign.ofBitVec (unpackSign b)) (unpackExponent b)
      (unpackMantissa b) = b := by
  rw [packComponents, toBitVec_ofBitVec]
  ext i hi
  simp only [unpackSign, unpackExponent, unpackMantissa, BitVec.extractLsb]
  grind

/-- The implicit leading digit of a mantissa. -/
theorem toNat_append_implicit (m : BitVec 52) : (1#1 ++ m).toNat = 2 ^ 52 + m.toNat := by
  rw [BitVec.toNat_append, ← Nat.shiftLeft_add_eq_or_of_lt m.isLt]
  simp [Nat.shiftLeft_eq]

/-! ## Unpacking -/

theorem canonical_unpack (b : BitVec Format.binary64.numBits) :
    Canonical (UnpackedFloat.unpack Format.binary64 b) := by
  have hm : (@unpackMantissa Format.binary64 b).toNat < 2 ^ 52 := (unpackMantissa b).isLt
  have he : (@unpackExponent Format.binary64 b).toNat < 2 ^ 11 := (unpackExponent b).isLt
  rw [UnpackedFloat.unpack]
  split
  · split <;> trivial
  · next hmax =>
    have hne : (@unpackExponent Format.binary64 b).toNat ≠ 2047 := fun h =>
      hmax (BitVec.eq_of_toNat_eq h)
    have hbias : (Format.binary64.exponentBias : Int) +
        Format.binary64.mantissaBitsWithoutImplicit = 1075 := rfl
    rw [hbias]
    split
    · next hzero =>
      split
      · trivial
      · rw [hzero]
        show _ ∧ _ ∧ _ ∧ _
        refine ⟨by omega, by decide, by decide, .inr (by decide)⟩
    · next hzero =>
      have hpos : (@unpackExponent Format.binary64 b).toNat ≠ 0 := fun h =>
        hzero (BitVec.eq_of_toNat_eq h)
      show _ ∧ _ ∧ _ ∧ _
      rw [toNat_append_implicit]
      refine ⟨by omega, by omega, by omega, .inl (by omega)⟩

/-- The components of a number are canonical. -/
theorem canonical_unpacked (x : Float) : Canonical (unpacked x) :=
  canonical_unpack _

/-! ## Packing -/

/-- The word of a normal number. -/
theorem unpack_normal (s : Sign) {e : Nat} (m : Nat) (h0 : 0 < e) (h1 : e < 2047) :
    UnpackedFloat.unpack Format.binary64
        (packComponents Format.binary64 s (BitVec.ofNat 11 e) (BitVec.ofNat 52 m)) =
      .finite s (2 ^ 52 + m % 2 ^ 52) ((e : Int) - 1075) (by omega) := by
  have he : (BitVec.ofNat 11 e).toNat = e := Nat.mod_eq_of_lt (by omega)
  have hmax : BitVec.ofNat 11 e ≠ -1#11 := by
    intro h
    have h := congrArg BitVec.toNat h
    rw [he] at h
    exact absurd h (by simp; omega)
  have hzero : BitVec.ofNat 11 e ≠ 0#11 := by
    intro h
    have h := congrArg BitVec.toNat h
    rw [he] at h
    exact absurd h (by simp; omega)
  have hbias : (Format.binary64.exponentBias : Int) +
      Format.binary64.mantissaBitsWithoutImplicit = 1075 := rfl
  simp only [UnpackedFloat.unpack, unpackExponent_packComponents, unpackMantissa_packComponents,
    unpackSign_packComponents, ofBitVec_toBitVec, hmax, hzero, if_false, he, hbias,
    toNat_append_implicit, BitVec.toNat_ofNat]

/-- The word of a subnormal number. -/
theorem unpack_subnormal (s : Sign) {m : Nat} (h0 : 0 < m) (h1 : m < 2 ^ 52) :
    UnpackedFloat.unpack Format.binary64
        (packComponents Format.binary64 s 0#11 (BitVec.ofNat 52 m)) =
      .finite s m (-1074) h0 := by
  have hm : (BitVec.ofNat 52 m).toNat = m := Nat.mod_eq_of_lt h1
  have hne : BitVec.ofNat 52 m ≠ 0#52 := by
    intro h
    have h := congrArg BitVec.toNat h
    rw [hm] at h
    exact absurd h (by simp; omega)
  simp only [UnpackedFloat.unpack, unpackExponent_packComponents, unpackMantissa_packComponents,
    unpackSign_packComponents, ofBitVec_toBitVec, hm, hne, if_false]
  rfl

theorem log2_add_one_eq_iff {m : Nat} (h0 : 0 < m) (h1 : m < 2 ^ 53) :
    m.log2 + 1 = Format.binary64.mantissaBits ↔ 2 ^ 52 ≤ m := by
  show m.log2 + 1 = 53 ↔ _
  have hlt : m.log2 < 53 := (Nat.log2_lt (Nat.ne_of_gt h0)).2 h1
  rw [← Nat.le_log2 (Nat.ne_of_gt h0)]
  omega

/-- A mantissa of 53 binary digits is packed without the first of them. -/
theorem pack_normal (s : Sign) {m e : Nat} (hm : 0 < m) (h0 : 2 ^ 52 ≤ m) (h1 : m < 2 ^ 53)
    (he : e < 2047) :
    UnpackedFloat.pack Format.binary64 (.finite s m ((e : Int) - 1075) hm) =
      packComponents Format.binary64 s (BitVec.ofNat 11 e) (BitVec.ofNat 52 m) := by
  have hbias : ((e : Int) - 1075 + Format.binary64.exponentBias +
      Format.binary64.mantissaBitsWithoutImplicit).toNat = e := by
    show ((e : Int) - 1075 + 1023 + 52).toNat = e
    omega
  have hinf : ¬ 2 ^ Format.binary64.exponentBits ≤ e + 1 := by
    show ¬ 2 ^ 11 ≤ _
    omega
  rw [UnpackedFloat.pack, hbias, if_neg hinf, if_pos ((log2_add_one_eq_iff hm h1).2 h0)]

/-- A shorter mantissa is packed with the least exponent. -/
theorem pack_subnormal (s : Sign) {m : Nat} (hm : 0 < m) (h : m < 2 ^ 52) :
    UnpackedFloat.pack Format.binary64 (.finite s m (-1074) hm) =
      packComponents Format.binary64 s 0#11 (BitVec.ofNat 52 m) := by
  have hshort : ¬ m.log2 + 1 = Format.binary64.mantissaBits := fun h' => by
    have := (log2_add_one_eq_iff hm (by omega)).1 h'
    omega
  rw [UnpackedFloat.pack, if_neg (by decide), if_neg hshort]

/-- Packing canonical components and unpacking them gives them back. -/
theorem unpack_pack {u : UnpackedFloat} (h : Canonical u) : (Float.Model.pack u).unpack = u := by
  show UnpackedFloat.unpack Format.binary64 (UnpackedFloat.pack Format.binary64 u) = u
  cases u with
  | infinity s => cases s <;> rfl
  | notANumber => rfl
  | zero s => cases s <;> rfl
  | finite s m e hm =>
    obtain ⟨hlt, hlow, hhigh, hlong⟩ := h
    by_cases hnormal : 2 ^ 52 ≤ m
    · obtain ⟨k, rfl⟩ : ∃ k : Nat, e = (k : Int) - 1075 := ⟨(e + 1075).toNat, by omega⟩
      rw [pack_normal s hm hnormal hlt (by omega), unpack_normal s m (by omega) (by omega)]
      congr 1
      omega
    · obtain rfl := hlong.resolve_left hnormal
      rw [pack_subnormal s hm (by omega), unpack_subnormal s hm (by omega)]

/-- Unpacking a word and packing its components gives it back, since there is one word for NaN. -/
theorem pack_unpack_of_valid {b : BitVec Format.binary64.numBits}
    (hb : Format.binary64.Valid b) :
    UnpackedFloat.pack Format.binary64 (UnpackedFloat.unpack Format.binary64 b) = b := by
  have hfields := packComponents_fields b
  have hm : (@unpackMantissa Format.binary64 b).toNat < 2 ^ 52 := (unpackMantissa b).isLt
  have he : (@unpackExponent Format.binary64 b).toNat < 2 ^ 11 := (unpackExponent b).isLt
  rw [UnpackedFloat.unpack]
  split
  · next hexp =>
    split
    · next hmant => rwa [hexp, hmant] at hfields
    · next hmant => exact (hb.eq_packedNaN hexp hmant).symm
  · next hexp =>
    have hmax : (@unpackExponent Format.binary64 b).toNat ≠ 2047 := fun h =>
      hexp (BitVec.eq_of_toNat_eq h)
    split
    · next hzero =>
      split
      · next hmant => rwa [hzero, hmant] at hfields
      · next hmant =>
        have hpos : 0 < (@unpackMantissa Format.binary64 b).toNat :=
          Nat.pos_of_ne_zero fun h => hmant (BitVec.eq_of_toNat_eq h)
        rw [hzero] at hfields ⊢
        refine (pack_subnormal _ hpos hm).trans ?_
        rwa [BitVec.ofNat_toNat, BitVec.setWidth_eq]
    · next hzero =>
      -- the leading digit that unpacking has put in front is lost again
      have hmant : BitVec.ofNat 52 (2 ^ 52 + (@unpackMantissa Format.binary64 b).toNat) =
          unpackMantissa b := by
        apply BitVec.eq_of_toNat_eq
        rw [BitVec.toNat_ofNat]
        omega
      have himplicit := toNat_append_implicit (unpackMantissa b)
      refine (pack_normal _ _ ?_ ?_ (by omega)).trans ?_
      · rw [himplicit]
        omega
      · rw [himplicit]
        omega
      · rwa [himplicit, hmant, BitVec.ofNat_toNat, BitVec.setWidth_eq]

/-- Unpacking a number and packing its components gives it back. -/
theorem pack_unpack (x : Float.Model) : Float.Model.pack x.unpack = x := by
  cases x with
  | mk bits valid =>
    have hbits := pack_unpack_of_valid valid
    simp only [Float.Model.pack, Float.Model.unpack, hbits]

/-- Different numbers have different components. -/
theorem unpacked_injective {x y : Float} (h : unpacked x = unpacked y) : x = y := by
  have hmodel : x.toModel = y.toModel := by
    rw [← pack_unpack x.toModel, ← pack_unpack y.toModel]
    exact congrArg Float.Model.pack h
  cases x
  cases y
  exact congrArg Float.ofModel hmodel

end TermCalc.Binary64
