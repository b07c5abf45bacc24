import Mathlib
import Turtle.Number.Magnitude

/-!
# Finite and negated numbers

A number is finite if its exponent is not the last one, and a number and its negation differ in the bit
of the sign only, also where they are zero or infinite.
-/

namespace Turtle

open Float.Model

namespace Number

theorem isFinite_unpack (b : BitVec 32) : (UnpackedFloat.unpack .binary32 b).isFinite = true ↔
    b.toNat / 0x800000 % 0x100 ≠ 255 := by
  have last : @UnpackedFloat.unpackExponent .binary32 b = -1#_ ↔ b.toNat / 0x800000 % 0x100 = 255 := by
    rw [← BitVec.toNat_inj, Magnitude.toNat_unpackExponent]
    rfl
  rw [ne_eq, ← last, UnpackedFloat.unpack]
  dsimp only
  split
  · rename_i h
    split <;> exact ⟨(nomatch ·), fun hn => absurd h hn⟩
  · rename_i h
    split
    · split <;> exact ⟨fun _ => h, fun _ => rfl⟩
    · exact ⟨fun _ => h, fun _ => rfl⟩

theorem exists_magnitude {v : Number} (h : Float32.isFinite v = true) :
    ∃ m negative, m.isFinite = true ∧ v = Magnitude.toNumber m negative := by
  have last := (isFinite_unpack v.toBits.toBitVec).mp h
  have hb := v.toBits.toNat_lt
  have bits : v.toBits.toBitVec.toNat = v.toBits.toNat := rfl
  rw [bits] at last
  have small : v.toBits.toNat % 0x80000000 < 0x7f800000 := by omega
  have hm : magnitude? v = some ⟨_, Nat.le_of_lt small⟩ := dif_pos (Nat.le_of_lt small)
  exact ⟨_, isNegative v, decide_eq_true small, (toNumber_magnitude hm).symm⟩

theorem toBits_ofBits {b : UInt32} (h : b.toNat % 0x80000000 ≤ 0x7f800000) :
    (Float32.ofBits b).toBits = b := by
  have valid := Magnitude.valid_bits ⟨_, h⟩ (0x80000000 ≤ b.toNat)
  rw [Magnitude.ofNat_bits h] at valid
  exact UInt32.toBitVec_inj.mp (UnpackedFloat.pack_unpack_of_valid valid)

end Number

namespace Magnitude

/-- Patterns with the same exponent and mantissa and opposite signs stand for a number and its negation. -/
theorem unpack_flip {b b' : BitVec 32}
    (he : @UnpackedFloat.unpackExponent .binary32 b' = @UnpackedFloat.unpackExponent .binary32 b)
    (hm : @UnpackedFloat.unpackMantissa .binary32 b' = @UnpackedFloat.unpackMantissa .binary32 b)
    (hs : UnpackedFloat.Sign.ofBitVec (@UnpackedFloat.unpackSign .binary32 b') =
      -UnpackedFloat.Sign.ofBitVec (@UnpackedFloat.unpackSign .binary32 b)) :
    UnpackedFloat.unpack .binary32 b' = (UnpackedFloat.unpack .binary32 b).neg := by
  unfold UnpackedFloat.unpack
  simp only [he, hm, hs]
  split
  · split <;> rfl
  · split
    · split <;> rfl
    · rfl

variable (m : Magnitude) (negative : Bool)

def pattern : BitVec 32 := (UInt32.ofNat (m.bits negative)).toBitVec

theorem toNat_pattern : (m.pattern negative).toNat = m.code + negative.toNat * 0x80000000 :=
  m.toNat_bits negative

theorem unpackExponent_pattern :
    (@UnpackedFloat.unpackExponent .binary32 (m.pattern negative)).toNat = m.code / 0x800000 := by
  have := m.code_le
  rw [toNat_unpackExponent, toNat_pattern]
  omega

theorem unpackMantissa_pattern :
    (@UnpackedFloat.unpackMantissa .binary32 (m.pattern negative)).toNat = m.code % 0x800000 := by
  rw [toNat_unpackMantissa, toNat_pattern]
  omega

theorem unpackSign_pattern :
    @UnpackedFloat.unpackSign .binary32 (m.pattern negative) = BitVec.ofBool negative := by
  have := m.code_le
  have := Bool.toNat_le negative
  have bit : (@UnpackedFloat.unpackSign .binary32 (m.pattern negative)).toNat =
      (m.pattern negative).toNat / 0x80000000 % 2 := by
    rw [UnpackedFloat.unpackSign, BitVec.toNat_cast, BitVec.extractLsb_toNat, Nat.shiftRight_eq_div_pow]
    rfl
  apply BitVec.eq_of_toNat_eq
  rw [bit, toNat_pattern, BitVec.toNat_ofBool]
  omega

theorem unpack_pattern_not : UnpackedFloat.unpack .binary32 (m.pattern !negative) =
    (UnpackedFloat.unpack .binary32 (m.pattern negative)).neg := by
  apply unpack_flip
  · apply BitVec.eq_of_toNat_eq
    rw [unpackExponent_pattern, unpackExponent_pattern]
  · apply BitVec.eq_of_toNat_eq
    rw [unpackMantissa_pattern, unpackMantissa_pattern]
  · rw [unpackSign_pattern, unpackSign_pattern]
    cases negative <;> rfl

theorem neg_toNumber : -m.toNumber negative = m.toNumber !negative := by
  apply Float32.toBits_inj.mp
  apply UInt32.toBitVec_inj.mp
  show UnpackedFloat.pack .binary32 (UnpackedFloat.unpack .binary32 (m.pattern negative)).neg =
    m.pattern !negative
  rw [← unpack_pattern_not]
  exact UnpackedFloat.pack_unpack_of_valid (m.valid_bits !negative)

end Magnitude

end Turtle
