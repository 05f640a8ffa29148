/-
Binary floating point as bit patterns.

A `FloatFormat` fixes the number of fraction and exponent bits; `BinaryFloat f` is a pattern of
the format `f`.  Without its sign bit a pattern is a natural number, its magnitude, and a larger
magnitude denotes a larger number.

* `units` is the finite number behind a magnitude, as a multiple of the least positive number
  of the format, `2 ^ -unitExponent`; comparisons of numbers are comparisons of units;
* `infinity` is the magnitude of an infinity, and larger ones are not numbers.
-/

namespace LiteralForm

/-! Powers of natural numbers are the built-in ones, whatever else is imported. -/
attribute [local instance (2000)] instPowNat

/-- The layout of a binary floating-point format: a sign, an exponent and a fraction. -/
structure FloatFormat where
  fractionBits : Nat
  exponentBits : Nat
  deriving DecidableEq, Repr

namespace FloatFormat

/-- The format of 32 bits. -/
def single : FloatFormat := ⟨23, 8⟩

/-- The format of 64 bits. -/
def double : FloatFormat := ⟨52, 11⟩

/-- The number of bits of a pattern. -/
def width (f : FloatFormat) : Nat := f.fractionBits + f.exponentBits + 1

/-- The least positive number of the format is `2 ^ -unitExponent`. -/
def unitExponent (f : FloatFormat) : Nat := 2 ^ (f.exponentBits - 1) - 2 + f.fractionBits

/-- The magnitude of an infinity. -/
def infinity (f : FloatFormat) : Nat := (2 ^ f.exponentBits - 1) * 2 ^ f.fractionBits

/-- The number of steps by which a magnitude's exponent exceeds the least one. -/
def shift (f : FloatFormat) (m : Nat) : Nat := m / 2 ^ f.fractionBits - 1

/-- The fraction of a magnitude with the hidden bit of a normal number. -/
def significand (f : FloatFormat) (m : Nat) : Nat :=
  if m < 2 ^ f.fractionBits then m else 2 ^ f.fractionBits + m % 2 ^ f.fractionBits

/-- The number behind a finite magnitude, in units of the least positive number. -/
def units (f : FloatFormat) (m : Nat) : Nat := f.significand m * 2 ^ f.shift m

end FloatFormat

/-- A bit pattern of a binary floating-point format. -/
structure BinaryFloat (f : FloatFormat) where
  bits : BitVec f.width
  deriving DecidableEq

namespace BinaryFloat

variable {f : FloatFormat}

/-- Whether the sign bit is set. -/
def negative (x : BinaryFloat f) : Bool := x.bits.msb

/-- The pattern without its sign bit, as a number. -/
def magnitude (x : BinaryFloat f) : Nat := x.bits.toNat % 2 ^ (f.width - 1)

/-- The pattern with the given sign bit and magnitude. -/
def ofMagnitude (negative : Bool) (m : Nat) : BinaryFloat f :=
  ⟨BitVec.ofNat f.width ((if negative then 2 ^ (f.width - 1) else 0) + m)⟩

/-- Whether the pattern is not a number. -/
def isNaN (x : BinaryFloat f) : Bool := f.infinity < x.magnitude

/-- Whether the pattern is one of the two infinities. -/
def isInfinite (x : BinaryFloat f) : Bool := x.magnitude == f.infinity

/-- Whether the pattern is a number. -/
def isFinite (x : BinaryFloat f) : Bool := x.magnitude < f.infinity

/-- Whether the pattern is a zero of either sign. -/
def isZero (x : BinaryFloat f) : Bool := x.magnitude == 0

/-- Numerical equality: no NaN equals anything, and the zeros are equal. -/
def numEq (x y : BinaryFloat f) : Bool :=
  !x.isNaN && !y.isNaN && ((x.isZero && y.isZero) || x.bits == y.bits)

end BinaryFloat

end LiteralForm
