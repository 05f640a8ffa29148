/-
Rounding to the nearest floating-point number.

`round f num den` is the magnitude nearest to `num / den`, an exact tie going to the even
neighbour.  The quotient is expressed in units of the least positive number, brought to the
precision of the format, and rounded there.  A carry out of the fraction moves into the
exponent by itself, because magnitudes of neighbouring numbers are neighbours; numbers past the
greatest finite one become an infinity.
-/
import LiteralForm.Float.Format

namespace LiteralForm

/-! Powers of natural numbers are the built-in ones, whatever else is imported. -/
attribute [local instance (2000)] instPowNat

/-- The integer nearest to `a / b`, an exact half going to the even neighbour. -/
def roundHalfEven (a b : Nat) : Nat :=
  if 2 * (a % b) < b then a / b
  else if b < 2 * (a % b) then a / b + 1
  else a / b + a / b % 2

namespace FloatFormat

/-- The number of low bits of a quotient, in units, that the format cannot keep. -/
def lostBits (f : FloatFormat) (quotient : Nat) : Nat := Nat.log2 quotient - f.fractionBits

/-- The magnitude nearest to `num / den`. -/
def round (f : FloatFormat) (num den : Nat) : Nat :=
  let scaled := num * 2 ^ f.unitExponent
  let k := f.lostBits (scaled / den)
  -- With `k` bits lost the rounded quotient has the hidden bit of a normal number, which adds the
  -- last unit to the exponent; with none lost it may be subnormal and is its own magnitude.
  min f.infinity (k * 2 ^ f.fractionBits + roundHalfEven scaled (den * 2 ^ k))

/-- The magnitude nearest to a natural number. -/
def ofNat (f : FloatFormat) (n : Nat) : Nat := f.round n 1

/-- The magnitude nearest to the product of two numbers of the format. -/
def mul (f : FloatFormat) (a b : Nat) : Nat :=
  f.round (f.units a * f.units b) (2 ^ f.unitExponent * 2 ^ f.unitExponent)

/-- The magnitude nearest to the quotient of two numbers of the format, the second not zero. -/
def div (f : FloatFormat) (a b : Nat) : Nat := f.round (f.units a) (f.units b)

/-- The magnitude of the format `g` nearest to a number of the format `f`; an infinity stays
one. -/
def convert (f g : FloatFormat) (m : Nat) : Nat :=
  if m < f.infinity then g.round (f.units m) (2 ^ f.unitExponent) else g.infinity

end FloatFormat

end LiteralForm
