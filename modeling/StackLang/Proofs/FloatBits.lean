import Mathlib
import StackLang.Decimal

/-!
# Floats and their fields

A floating-point number has three fields: a sign, an exponent of eleven bits and
a fraction of fifty-two. An exponent of ones stands for infinity, with a fraction
of zero; with any other fraction it is not a number, and all of those are one
value. Negation and the absolute value change the sign and nothing else.
-/
namespace StackLang.Decimal

open Float.Model (Format UnpackedFloat)
open Float.Model.UnpackedFloat

section Components

variable (sign : Sign) (exponent : BitVec 11) (fraction : BitVec 52)

theorem toNat_packComponents :
    (packComponents .binary64 sign exponent fraction).toNat =
      sign.toBitVec.toNat * 2 ^ 63 + (exponent.toNat * 2 ^ 52 + fraction.toNat) := by
  have whole : exponent.toNat * 2 ^ 52 + fraction.toNat < 2 ^ 63 := by omega
  rw [packComponents, BitVec.toNat_append, ← Nat.shiftLeft_add_eq_or_of_lt fraction.isLt,
    BitVec.toNat_append, ← Nat.shiftLeft_add_eq_or_of_lt exponent.isLt, Nat.shiftLeft_eq,
    Nat.shiftLeft_eq]
  omega

theorem toNat_one_append : (1#1 ++ fraction).toNat = 2 ^ 52 + fraction.toNat := by
  rw [BitVec.toNat_append, ← Nat.shiftLeft_add_eq_or_of_lt fraction.isLt, Nat.shiftLeft_eq]
  simp

/-- What the fields stand for. -/
theorem unpack_packComponents :
    unpack .binary64 (packComponents .binary64 sign exponent fraction) =
      if exponent = -1#11 then
        if fraction = 0#52 then .infinity sign else .notANumber
      else if exponent = 0#11 then
        if zero : fraction = 0#52 then .zero sign
        else .finite sign fraction.toNat (-1074)
          (Nat.pos_of_ne_zero fun none => zero (BitVec.eq_of_toNat_eq none))
      else .finite sign (2 ^ 52 + fraction.toNat) (exponent.toNat - 1075) (by omega) := by
  have bias : ((Format.binary64.exponentBias : Nat) : Int) = 1023 := rfl
  rw [UnpackedFloat.unpack]
  simp only [unpackMantissa_packComponents, unpackExponent_packComponents,
    unpackSign_packComponents, Sign.ofBitVec_toBitVec, toNat_one_append, bias]
  by_cases ones : exponent = -1#11
  · simp [ones]
  · by_cases zeros : exponent = 0#11
    · subst zeros
      simp
    · simp [zeros]

theorem neg_unpack :
    (UnpackedFloat.unpack .binary64 (packComponents .binary64 sign exponent fraction)).neg =
      UnpackedFloat.unpack .binary64 (packComponents .binary64 (-sign) exponent fraction) := by
  rw [unpack_packComponents, unpack_packComponents]
  split
  · split <;> rfl
  · split
    · split <;> rfl
    · rfl

theorem abs_unpack :
    (UnpackedFloat.unpack .binary64 (packComponents .binary64 sign exponent fraction)).abs =
      UnpackedFloat.unpack .binary64 (packComponents .binary64 .positive exponent fraction) := by
  rw [unpack_packComponents, unpack_packComponents]
  split
  · split <;> rfl
  · split
    · split <;> rfl
    · rfl

/-- Only fields that stand for no number are packed as others. -/
theorem pack_unpack_packComponents (number : exponent = -1#11 → fraction = 0#52) :
    UnpackedFloat.pack .binary64
        (UnpackedFloat.unpack .binary64 (packComponents .binary64 sign exponent fraction)) =
      packComponents .binary64 sign exponent fraction := by
  rw [pack_unpack, if_neg]
  simpa [isNaNBits] using number

end Components

/-- The float with certain fields. -/
def ofFields (sign : Sign) (exponent : BitVec 11) (fraction : BitVec 52) : Float :=
  Float.ofBits (UInt64.ofBitVec (packComponents .binary64 sign exponent fraction))

section Fields

variable {sign : Sign} {exponent : BitVec 11} {fraction : BitVec 52}

theorem toBits_ofFields (number : exponent = -1#11 → fraction = 0#52) :
    (ofFields sign exponent fraction).toBits =
      UInt64.ofBitVec (packComponents .binary64 sign exponent fraction) :=
  congrArg UInt64.ofBitVec (pack_unpack_packComponents sign exponent fraction number)

theorem unpack_ofFields (number : exponent = -1#11 → fraction = 0#52) :
    (ofFields sign exponent fraction).toModel.unpack =
      UnpackedFloat.unpack .binary64 (packComponents .binary64 sign exponent fraction) :=
  congrArg (UnpackedFloat.unpack .binary64)
    (pack_unpack_packComponents sign exponent fraction number)

theorem neg_ofFields (number : exponent = -1#11 → fraction = 0#52) :
    -ofFields sign exponent fraction = ofFields (-sign) exponent fraction := by
  change Float.ofModel (.pack (ofFields sign exponent fraction).toModel.unpack.neg) = _
  rw [unpack_ofFields number, neg_unpack]
  rfl

theorem abs_ofFields (number : exponent = -1#11 → fraction = 0#52) :
    (ofFields sign exponent fraction).abs = ofFields .positive exponent fraction := by
  change Float.ofModel (.pack (ofFields sign exponent fraction).toModel.unpack.abs) = _
  rw [unpack_ofFields number, abs_unpack]
  rfl

theorem isNaN_ofFields (number : exponent = -1#11 → fraction = 0#52) :
    (ofFields sign exponent fraction).isNaN = false := by
  change (ofFields sign exponent fraction).toModel.unpack.isNaN = false
  rw [unpack_ofFields number, unpack_packComponents]
  split
  next ones =>
    rw [if_pos (number ones)]
    rfl
  · split
    · split <;> rfl
    · rfl

theorem isInf_ofFields (number : exponent = -1#11 → fraction = 0#52) :
    (ofFields sign exponent fraction).isInf = true ↔ exponent = -1#11 := by
  change (ofFields sign exponent fraction).toModel.unpack.isInf = true ↔ _
  rw [unpack_ofFields number, unpack_packComponents]
  split
  next ones =>
    rw [if_pos (number ones)]
    exact iff_of_true rfl ones
  next others =>
    refine iff_of_false ?_ others
    split
    · split <;> exact Bool.false_ne_true
    · exact Bool.false_ne_true

theorem beq_zero_ofFields (number : exponent = -1#11 → fraction = 0#52) :
    (ofFields sign exponent fraction == 0) = true ↔ exponent = 0#11 ∧ fraction = 0#52 := by
  have zero : (0 : Float).toModel.unpack = .zero .positive := by rfl
  change (ofFields sign exponent fraction).toModel.unpack.beq (0 : Float).toModel.unpack = true ↔ _
  rw [unpack_ofFields number, unpack_packComponents, zero]
  split
  next ones =>
    rw [if_pos (number ones), ones]
    cases sign <;> simp [UnpackedFloat.beq, UnpackedFloat.compare]
  next others =>
    split
    next zeros =>
      split
      next none =>
        cases sign <;> simp [UnpackedFloat.beq, UnpackedFloat.compare, zeros, none]
      next some =>
        cases sign <;> simp [UnpackedFloat.beq, UnpackedFloat.compare, some]
    next some =>
      cases sign <;> simp [UnpackedFloat.beq, UnpackedFloat.compare, some]

/-- The bits of a nonnegative float, read as a whole number. -/
theorem toNat_toBits_ofFields (number : exponent = -1#11 → fraction = 0#52) :
    (ofFields .positive exponent fraction).toBits.toNat =
      exponent.toNat * 2 ^ 52 + fraction.toNat := by
  rw [toBits_ofFields number]
  change (packComponents .binary64 .positive exponent fraction).toNat = _
  have bit : Sign.positive.toBitVec.toNat = 0 := rfl
  rw [toNat_packComponents, bit]
  omega

/-- The first bit is the sign. -/
theorem sign_ofFields (number : exponent = -1#11 → fraction = 0#52) :
    (ofFields sign exponent fraction).toBits >>> 63 = 0 ↔ sign = .positive := by
  rw [toBits_ofFields number, ← UInt64.toNat_inj, UInt64.toNat_shiftRight]
  change (packComponents .binary64 sign exponent fraction).toNat >>> 63 = 0 ↔ _
  rw [toNat_packComponents, Nat.shiftRight_eq_div_pow]
  have whole : exponent.toNat * 2 ^ 52 + fraction.toNat < 2 ^ 63 := by omega
  cases sign with
  | positive =>
    have bit : Sign.positive.toBitVec.toNat = 0 := rfl
    rw [bit]
    refine iff_of_true ?_ rfl
    omega
  | negative =>
    have bit : Sign.negative.toBitVec.toNat = 1 := rfl
    rw [bit]
    refine iff_of_false ?_ nofun
    omega

end Fields

/-- A float is not a number, or it is one by its fields. -/
theorem eq_nan_or_ofFields (x : Float) :
    x = nan ∨ ∃ sign exponent fraction, (exponent = -1#11 → fraction = 0#52) ∧
      x = ofFields sign exponent fraction := by
  let bits : BitVec Format.binary64.numBits := x.toBits.toBitVec
  by_cases number : unpackExponent bits = -1#11 → unpackMantissa bits = 0#52
  · refine .inr ⟨Sign.ofBitVec (unpackSign bits), _, _, number, Float.toBits_inj.mp ?_⟩
    rw [toBits_ofFields number, packComponents_unpackSign_unpackExponent_unpackMantissa]
  · obtain ⟨ones, some⟩ := Classical.not_imp.mp number
    have canonical : bits = packedNaN .binary64 := x.toModel.valid.eq_packedNaN ones some
    refine .inl (Float.toBits_inj.mp ?_)
    have packed : nan.toBits = UInt64.ofBitVec (packedNaN .binary64) := by rfl
    rw [packed, ← canonical]

theorem isNaN_nan : nan.isNaN = true := by
  rfl

end StackLang.Decimal
