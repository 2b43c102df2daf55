import Mathlib
import Lox.Numeral.Binary

/-!
# Doubles and their bits

A double is made of its bits: the sign, the exponent and the mantissa are packed again as they were
unpacked. So a double with a clear sign is the one of its pattern.
-/
namespace Lox.Numeral

open Float.Model (Format UnpackedFloat)
open Float.Model.UnpackedFloat

section
variable (b : BitVec Format.binary64.numBits)

/-- The three fields put together are the whole. -/
theorem packComponents_fields :
    packComponents .binary64 (Sign.ofBitVec (unpackSign b)) (unpackExponent b)
      (unpackMantissa b) = b := by
  have sign : ∀ s : BitVec 1, (Sign.ofBitVec s).toBitVec = s := by decide
  refine BitVec.eq_of_getLsbD_eq fun i hi => ?_
  rw [packComponents, sign]
  simp only [BitVec.getLsbD_append, unpackSign, unpackExponent, unpackMantissa,
    BitVec.extractLsb, BitVec.getLsbD_cast, BitVec.getLsbD_extractLsb']
  grind

end

section
variable (s : Sign) (e : BitVec 11) (m : BitVec 52)

theorem pack_subnormal {exponent : Int} (least : exponent = -1074) (positive : 0 < m.toNat) :
    pack .binary64 (.finite s m.toNat exponent positive) = packComponents .binary64 s 0#11 m := by
  have narrow : m.toNat.log2 < 52 := (Nat.log2_lt (Nat.ne_of_gt positive)).mpr m.isLt
  have unbiased : (exponent + (Format.binary64.exponentBias : Int) + (52 : Nat)).toNat = 1 := by
    rw [least]
    rfl
  have other : m.toNat.log2 + 1 ≠ Format.binary64.mantissaBits := by
    rw [show Format.binary64.mantissaBits = 53 from rfl]
    omega
  simp only [pack]
  rw [unbiased, if_neg (by decide), if_neg other, BitVec.ofNat_toNat, BitVec.setWidth_eq]

theorem pack_normal {exponent : Int} (large : e ≠ -1#11)
    (biased : exponent = e.toNat - 1075) (positive : 0 < (1#1 ++ m).toNat) :
    pack .binary64 (.finite s (1#1 ++ m).toNat exponent positive) =
      packComponents .binary64 s e m := by
  have whole : (1#1 ++ m).toNat = 2 ^ 52 + m.toNat := by
    rw [BitVec.toNat_append, ← Nat.shiftLeft_add_eq_or_of_lt m.isLt, Nat.shiftLeft_eq]
    rfl
  have wide : (1#1 ++ m).toNat.log2 = 52 := by
    rw [whole, Nat.log2_eq_iff (by omega)]
    have := m.isLt
    omega
  have bounded : e.toNat < 2047 := by
    have := e.isLt
    have other : e.toNat ≠ 2047 := fun h => large (BitVec.eq_of_toNat_eq h)
    omega
  have unbiased :
      (exponent + (Format.binary64.exponentBias : Int) + (52 : Nat)).toNat = e.toNat := by
    rw [biased, show (Format.binary64.exponentBias : Int) = 1023 from rfl]
    omega
  have finite : ¬2 ^ 11 ≤ e.toNat + 1 := by omega
  have same : (1#1 ++ m).toNat.log2 + 1 = Format.binary64.mantissaBits := by
    rw [wide]
    rfl
  simp only [pack]
  rw [unbiased, if_neg finite, if_pos same]
  congr 1
  · exact BitVec.eq_of_toNat_eq (by simp)
  · refine BitVec.eq_of_toNat_eq ?_
    rw [whole, BitVec.toNat_ofNat]
    have := m.isLt
    omega

end

/-- What is unpacked is packed as it was. Of all the patterns that are not numbers only one is
valid. -/
theorem pack_unpack {b : BitVec Format.binary64.numBits} (valid : Format.binary64.Valid b) :
    UnpackedFloat.pack .binary64 (UnpackedFloat.unpack .binary64 b) = b := by
  have fields := packComponents_fields b
  rw [UnpackedFloat.unpack]
  by_cases large : unpackExponent b = -1#11
  · rw [if_pos large]
    by_cases whole : unpackMantissa b = 0#52
    · rw [if_pos whole]
      rw [large, whole] at fields
      exact fields
    · rw [if_neg whole]
      exact (valid.eq_packedNaN large whole).symm
  rw [if_neg large]
  by_cases small : unpackExponent b = 0#11
  · rw [if_pos small]
    by_cases whole : unpackMantissa b = 0#52
    · rw [dif_pos whole]
      rw [small, whole] at fields
      exact fields
    · rw [dif_neg whole, pack_subnormal _ _ (by rw [small]; rfl)]
      rw [small] at fields
      exact fields
  · rw [if_neg small]
    exact (pack_normal _ _ _ large rfl _).trans fields

theorem ofBits_toBits (x : Float) : Float.ofBits x.toBits = x := by
  obtain ⟨⟨bits, valid⟩⟩ := x
  have same : UInt64.ofBitVec (UnpackedFloat.pack .binary64
      (UnpackedFloat.unpack .binary64 bits.toBitVec)) = bits := by
    rw [pack_unpack valid]
  show Float.ofModel (.ofBits bits) = ⟨⟨bits, valid⟩⟩
  congr 1
  exact (Float.Model.mk.injEq ..).mpr same

/-- A double without a sign is the one of its pattern. -/
theorem ofPattern_pattern {x : Float} (clear : negative x = false) : ofPattern (pattern x) = x := by
  have below : x.toBits.toNat < Nat.pow 2 63 := by
    simpa [negative] using clear
  rw [pattern, Nat.mod_eq_of_lt below, ofPattern]
  show Float.ofBits (UInt64.ofNat x.toBits.toNat) = x
  rw [UInt64.ofNat_toNat, ofBits_toBits]

end Lox.Numeral
