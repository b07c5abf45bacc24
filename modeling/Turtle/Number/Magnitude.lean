/-!
# Single precision magnitudes

A `Magnitude` is a nonnegative single precision number or infinity, written as its code: the 31 bits below
the sign. Codes grow with the numbers. A finite one stands for `significand * 2 ^ place` steps of the least
positive number `2 ^ -149`. `nearest` rounds a quotient once, ties to even, and `nearest_steps` says that it
leaves a number that is already a magnitude as it is.
-/

namespace Turtle

abbrev Number := Float32

/-- A nonnegative number or infinity, by the bits below its sign. -/
@[ext] structure Magnitude where
  code : Nat
  code_le : code ≤ 0x7f800000
deriving DecidableEq

namespace Magnitude

def infinity : Magnitude := ⟨0x7f800000, by decide⟩

def isFinite (m : Magnitude) : Bool := m.code < infinity.code

/-- Weight of the last binary digit, as a power of two in steps of `2 ^ -149`. -/
def place (m : Magnitude) : Nat := m.code / 0x800000 - 1

/-- The digits kept: below `2 ^ 24`, and from `2 ^ 23` on unless the place is the least. -/
def significand (m : Magnitude) : Nat := m.code - m.place * 0x800000

def steps (m : Magnitude) : Nat := m.significand <<< m.place

/-! ## Rounding -/

def roundHalfEven (num den : Nat) : Nat :=
  let q := num / den
  let twice := 2 * (num % den)
  if den < twice ∨ (den = twice ∧ q % 2 = 1) then q + 1 else q

/-- The magnitude nearest to `num / den`. The last digit kept is the 24th of the quotient or the one of
weight `2 ^ -149`, whichever weighs more; a carry out of the significand lands in the next code by itself. -/
def nearest (num den : Nat) : Magnitude :=
  let place := (num <<< 149 / den).log2 - 23
  ⟨min (roundHalfEven (num <<< 149) (den <<< place) + place * 0x800000) infinity.code, Nat.min_le_right _ _⟩

theorem roundHalfEven_mul (n : Nat) {d : Nat} (hd : 0 < d) : roundHalfEven (n * d) d = n := by
  simp [roundHalfEven, Nat.mul_div_cancel n hd, show d ≠ 0 by omega]

theorem roundHalfEven_mul_mul (n d : Nat) {k : Nat} (hk : 0 < k) :
    roundHalfEven (n * k) (d * k) = roundHalfEven n d := by
  have h : 2 * (n % d * k) = 2 * (n % d) * k := by rw [Nat.mul_assoc]
  simp only [roundHalfEven, Nat.mul_div_mul_right n d hk, Nat.mul_mod_mul_right, h,
    Nat.mul_lt_mul_right hk, Nat.mul_right_cancel_iff hk]

theorem shiftLeft_mul (n k : Nat) {i : Nat} : (n * k) <<< i = n <<< i * k := by
  rw [Nat.shiftLeft_eq, Nat.shiftLeft_eq, Nat.mul_right_comm]

theorem nearest_mul_mul (n d : Nat) {k : Nat} (hk : 0 < k) : nearest (n * k) (d * k) = nearest n d := by
  simp only [nearest, shiftLeft_mul, Nat.mul_div_mul_right _ d hk, roundHalfEven_mul_mul _ _ hk]

theorem significand_add (m : Magnitude) : m.significand + m.place * 0x800000 = m.code := by
  unfold significand place; omega

theorem significand_lt (m : Magnitude) : m.significand < 0x1000000 := by
  unfold significand place; omega

theorem le_significand (m : Magnitude) (h : m.place ≠ 0) : 0x800000 ≤ m.significand := by
  unfold significand place at *; omega

theorem log2_shiftLeft {n : Nat} (k : Nat) (h : n ≠ 0) : (n <<< k).log2 = n.log2 + k := by
  induction k with
  | zero => rfl
  | succ k ih =>
    have : n <<< k ≠ 0 := by rwa [Ne, Nat.shiftLeft_eq_zero_iff]
    rw [Nat.shiftLeft_succ, Nat.log2_two_mul this, ih, Nat.add_assoc]

theorem log2_steps (m : Magnitude) : m.steps.log2 - 23 = m.place := by
  by_cases h0 : m.significand = 0
  · have : m.place = 0 := Classical.byContradiction fun h => by have := m.le_significand h; omega
    simp [steps, h0, this]
  · have hl := log2_shiftLeft m.place h0
    rw [← steps] at hl
    have h1 := (Nat.log2_lt (k := 24) h0).mpr m.significand_lt
    by_cases hp : m.place = 0
    · omega
    · have := (Nat.le_log2 (k := 23) h0).mpr (m.le_significand hp)
      omega

theorem nearest_steps (m : Magnitude) : nearest m.steps (1 <<< 149) = m := by
  have hp : 0 < 1 <<< (149 + m.place) := Nat.pos_of_ne_zero (by rw [Ne, Nat.shiftLeft_eq_zero_iff]; decide)
  have hq : m.steps <<< 149 / 1 <<< 149 = m.steps := by
    rw [← Nat.one_mul m.steps, shiftLeft_mul, Nat.mul_div_cancel_left _ (show 0 < 1 <<< 149 by decide),
      Nat.one_mul]
  have hr : roundHalfEven (m.steps <<< 149) (1 <<< 149 <<< m.place) = m.significand := by
    have all := shiftLeft_mul 1 m.significand (i := 149 + m.place)
    rw [Nat.one_mul, Nat.mul_comm] at all
    rw [steps, ← Nat.shiftLeft_add, ← Nat.shiftLeft_add, Nat.add_comm m.place, all, roundHalfEven_mul _ hp]
  ext
  simp only [nearest, hq, log2_steps, hr, significand_add]
  exact Nat.min_eq_left m.code_le

/-! ## Signed numbers -/

section
open Float.Model Float.Model.UnpackedFloat

theorem toNat_unpackExponent (b : BitVec 32) :
    (@unpackExponent .binary32 b).toNat = b.toNat / 0x800000 % 0x100 := by
  simp [unpackExponent, Nat.shiftRight_eq_div_pow]

theorem toNat_unpackMantissa (b : BitVec 32) :
    (@unpackMantissa .binary32 b).toNat = b.toNat % 0x800000 := by
  simp [unpackMantissa]

end

def bits (m : Magnitude) (negative : Bool) : Nat := m.code + negative.toNat * 0x80000000

theorem toNat_bits (m : Magnitude) (negative : Bool) :
    (UInt32.ofNat (m.bits negative)).toNat = m.bits negative := by
  have := m.code_le
  have := Bool.toNat_le negative
  rw [UInt32.toNat_ofNat', Nat.mod_eq_of_lt (by unfold bits; omega)]

theorem ofNat_bits {b : UInt32} (h : b.toNat % 0x80000000 ≤ 0x7f800000) :
    UInt32.ofNat (bits ⟨_, h⟩ (0x80000000 ≤ b.toNat)) = b := by
  have hb := b.toNat_lt
  apply UInt32.toNat_inj.mp
  rw [toNat_bits, bits]
  by_cases hs : 0x80000000 ≤ b.toNat
  · rw [decide_eq_true hs, Bool.toNat_true]
    dsimp only
    omega
  · rw [decide_eq_false hs, Bool.toNat_false]
    dsimp only
    omega

/-- A code with a sign before it is no second form of the one value that is no number. -/
theorem valid_bits (m : Magnitude) (negative : Bool) :
    Float.Model.Format.binary32.Valid (UInt32.ofNat (m.bits negative)).toBitVec := by
  have hc := m.code_le
  have hn := Bool.toNat_le negative
  have hb : (UInt32.ofNat (m.bits negative)).toBitVec.toNat = m.bits negative := m.toNat_bits negative
  refine ⟨fun he hm => absurd (BitVec.eq_of_toNat_eq ?_) hm⟩
  have he := congrArg BitVec.toNat he
  rw [toNat_unpackExponent, hb, show (-1#8).toNat = 255 by decide] at he
  rw [toNat_unpackMantissa, hb, BitVec.toNat_ofNat, Nat.zero_mod]
  unfold bits at *
  omega

def toNumber (m : Magnitude) (negative : Bool) : Number :=
  .ofModel ⟨.ofNat (m.bits negative), m.valid_bits negative⟩

end Magnitude

namespace Number

def isNegative (v : Number) : Bool := 0x80000000 ≤ v.toBits.toNat

/-- The number without its sign; `none` for the value that is no number. -/
def magnitude? (v : Number) : Option Magnitude :=
  if h : v.toBits.toNat % 0x80000000 ≤ 0x7f800000 then some ⟨_, h⟩ else none

theorem isNegative_toNumber (m : Magnitude) (negative : Bool) :
    isNegative (m.toNumber negative) = negative := by
  have := m.code_le
  have hb : (m.toNumber negative).toBits.toNat = m.bits negative := m.toNat_bits negative
  unfold isNegative
  rw [hb, Magnitude.bits]
  cases negative with
  | false => exact decide_eq_false (by rw [Bool.toNat_false]; omega)
  | true => exact decide_eq_true (by rw [Bool.toNat_true]; omega)

theorem magnitude?_toNumber (m : Magnitude) (negative : Bool) :
    magnitude? (m.toNumber negative) = some m := by
  have hc := m.code_le
  have hb : (m.toNumber negative).toBits.toNat % 0x80000000 = m.code := by
    rw [show (m.toNumber negative).toBits.toNat = m.bits negative from m.toNat_bits negative, Magnitude.bits]
    omega
  cases m with
  | mk code le => simp only [magnitude?, hb, hc, dite_true]

theorem toNumber_magnitude {v : Number} {m : Magnitude} (h : magnitude? v = some m) :
    m.toNumber (isNegative v) = v := by
  unfold magnitude? at h
  split at h
  case isFalse => exact absurd h (by simp)
  case isTrue hle =>
    obtain rfl := (Option.some.inj h).symm
    have hb : UInt32.ofNat (Magnitude.bits ⟨_, hle⟩ (isNegative v)) = v.toBits := Magnitude.ofNat_bits hle
    obtain ⟨⟨b, valid⟩⟩ := v
    have model : ∀ b' h, b' = b → Float32.Model.mk b' h = ⟨b, valid⟩ := by
      rintro _ _ rfl
      rfl
    exact congrArg Float32.ofModel (model _ _ hb)

end Number

end Turtle
