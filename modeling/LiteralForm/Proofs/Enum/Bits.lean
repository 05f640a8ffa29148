/-
Bit patterns of enum values.

The constants of a declaration and the values of its type may be wider than the underlying type.
What counts is their pattern, the value modulo `2 ^ width`:

* `bits_eq_bits_iff`: two values have one pattern exactly if they are congruent;
* `normalize_of_integral`, `IntKind.eq_wrap`: the normalized value is the one number of the
  underlying range that is congruent to the value;
* `toNat_pattern`: the pattern as a number is the pattern as a vector of bits.

Design notes: an underlying type that is not integral has the width of a wide integer, so the
lemmas on patterns alone hold of every declaration; those that mention a range take the integral
kind as a parameter.
-/
import LiteralForm.Enum.Basic
import Mathlib.Data.Int.ModEq

namespace LiteralForm

/-! Powers of natural numbers are the built-in ones, whatever else is imported. -/
attribute [local instance (2000)] instPowNat

/-- A remainder by a power of two is not negative, so nothing is lost as a natural number. -/
theorem toNat_emod_two_pow_inj {w : Nat} {a b : Int} :
    (a % (2 ^ w : Nat)).toNat = (b % (2 ^ w : Nat)).toNat
      ↔ a % (2 ^ w : Nat) = b % (2 ^ w : Nat) := by
  have hpos : (0 : Int) < (2 ^ w : Nat) := by exact_mod_cast Nat.two_pow_pos w
  have ha := Int.emod_nonneg a hpos.ne'
  have hb := Int.emod_nonneg b hpos.ne'
  omega

namespace IntKind

/-- Two integers agree in the bits of the kind. -/
def Congruent (k : IntKind) (a b : Int) : Prop := a ≡ b [ZMOD (2 ^ k.width : Nat)]

instance (k : IntKind) (a b : Int) : Decidable (k.Congruent a b) :=
  inferInstanceAs (Decidable (_ = _))

/-- The pattern of an integer at the width of the kind. -/
def pattern (k : IntKind) (n : Int) : BitVec k.width := BitVec.ofInt k.width n

/-- The representative of the range depends on the pattern alone. -/
theorem wrap_congr {k : IntKind} {a b : Int} (h : k.Congruent a b) : k.wrap a = k.wrap b := by
  have he : a % (2 ^ k.width : Nat) = b % (2 ^ k.width : Nat) := h
  unfold wrap
  split
  · rw [← Int.emod_bmod a, ← Int.emod_bmod b, he]
  · exact he

theorem wrap_congruent (k : IntKind) (n : Int) : k.Congruent (k.wrap n) n := k.wrap_emod n

/-- A number of the range is the representative of every number congruent to it. -/
theorem eq_wrap {k : IntKind} {m n : Int} (hm : k.InRange m) (h : k.Congruent m n) :
    m = k.wrap n := by
  rw [← wrap_congr h, wrap_eq_self hm]

end IntKind

namespace EnumType

variable {e : EnumType} {k : IntKind}

/-! ### Patterns -/

theorem bits_eq_bits_iff {a b : Int} :
    e.bits a = e.bits b ↔ a % (2 ^ e.width : Nat) = b % (2 ^ e.width : Nat) :=
  toNat_emod_two_pow_inj

@[simp] theorem bits_zero (e : EnumType) : e.bits 0 = 0 := by simp [bits]

theorem natCast_bits (e : EnumType) (raw : Int) :
    (e.bits raw : Int) = raw % (2 ^ e.width : Nat) := by
  have hpos : (0 : Int) < (2 ^ e.width : Nat) := by exact_mod_cast Nat.two_pow_pos e.width
  exact Int.toNat_of_nonneg (Int.emod_nonneg raw hpos.ne')

theorem bits_lt (e : EnumType) (raw : Int) : e.bits raw < 2 ^ e.width := by
  have hpos : (0 : Int) < (2 ^ e.width : Nat) := by exact_mod_cast Nat.two_pow_pos e.width
  have hlt := Int.emod_lt_of_pos raw hpos
  rw [bits]
  omega

theorem lt_width_of_testBit {raw : Int} {i : Nat} (h : (e.bits raw).testBit i = true) :
    i < e.width := by
  by_contra hle
  have hlt : e.bits raw < 2 ^ i :=
    Nat.lt_of_lt_of_le (e.bits_lt raw) (Nat.pow_le_pow_right (by decide) (Nat.not_lt.mp hle))
  rw [Nat.testBit_lt_two_pow hlt] at h
  cases h

/-! ### The representative of the underlying range -/

theorem normalize_emod (e : EnumType) (raw : Int) :
    e.normalize raw % (2 ^ e.width : Nat) = raw % (2 ^ e.width : Nat) := by
  unfold normalize width
  cases e.underlying.intKind? with
  | none => exact Int.bmod_emod
  | some k => exact k.wrap_emod raw

/-- Normalizing a value keeps its pattern. -/
@[simp] theorem bits_normalize (e : EnumType) (raw : Int) :
    e.bits (e.normalize raw) = e.bits raw :=
  bits_eq_bits_iff.mpr (e.normalize_emod raw)

@[simp] theorem nameOf_normalize (e : EnumType) (raw : Int) :
    e.nameOf (e.normalize raw) = e.nameOf raw := by
  simp [nameOf]

/-! ### Integral underlying types -/

theorem width_of_integral (h : e.underlying = .integral k) : e.width = k.width := by
  simp [width, h, Primitive.intKind?]

theorem normalize_of_integral (h : e.underlying = .integral k) (raw : Int) :
    e.normalize raw = k.wrap raw := by
  simp [normalize, h, Primitive.intKind?]

theorem bits_eq_bits_iff_congruent (h : e.underlying = .integral k) {a b : Int} :
    e.bits a = e.bits b ↔ k.Congruent a b := by
  rw [bits_eq_bits_iff, width_of_integral h]
  rfl

theorem toNat_pattern (h : e.underlying = .integral k) (raw : Int) :
    (k.pattern raw).toNat = e.bits raw := by
  rw [IntKind.pattern, BitVec.toNat_ofInt, bits, width_of_integral h]

end EnumType

end LiteralForm
