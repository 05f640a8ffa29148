/-
Decimal numbers with a scale.

A `Decimal` is `mantissa / 10 ^ scale` with a mantissa of at most 96 bits and at most 28
digits after the point.  The scale is part of the number: `1.5` and `1.50` are different
values.  `ofParts` refuses parts that are out of range, the scale first.
-/
import LiteralForm.Integer

namespace LiteralForm

/-! Powers of natural numbers are the built-in ones, whatever else is imported. -/
attribute [local instance (2000)] instPowNat

/-- The number of bits of a mantissa without its sign. -/
def Decimal.mantissaBits : Nat := 96

/-- The greatest magnitude of a mantissa. -/
def Decimal.maxMantissa : Nat := 2 ^ mantissaBits - 1

/-- The greatest number of digits after the point. -/
def Decimal.maxScale : Nat := 28

/-- A decimal number that keeps the number of its fractional digits. -/
structure Decimal where
  mantissa : Int
  scale : Nat
  mantissa_le : mantissa.natAbs ≤ Decimal.maxMantissa
  scale_le : scale ≤ Decimal.maxScale
  deriving DecidableEq

/-- The reason why a decimal number is refused. -/
inductive DecimalError
  /-- There are too many digits after the point. -/
  | scaleOutOfRange (digits : Nat)
  /-- The mantissa takes more than 96 bits. -/
  | overflow
  /-- The text is not a decimal numeral. -/
  | invalid (text : String)
  deriving DecidableEq, Repr

/-- The wording of an error. -/
def DecimalError.message : DecimalError → String
  | scaleOutOfRange n => "decimal scale " ++ toString n ++ " exceeds the maximum of 28"
  | overflow => "decimal mantissa does not fit in 96 bits"
  | invalid s => "invalid decimal literal '" ++ s ++ "'"

namespace Decimal

/-- The decimal with the given mantissa and scale. -/
def ofParts (mantissa : Int) (scale : Nat) : Except DecimalError Decimal :=
  if hs : scale ≤ maxScale then
    if hm : mantissa.natAbs ≤ maxMantissa then .ok ⟨mantissa, scale, hm, hs⟩
    else .error .overflow
  else .error (.scaleOutOfRange scale)

theorem natAbs_integral_le (n : Integral) : n.value.natAbs ≤ maxMantissa := by
  obtain ⟨k, v, h⟩ := n
  revert h
  cases k <;>
    simp [IntKind.InRange, IntKind.minValue, IntKind.maxValue, IntKind.isSigned, IntKind.width,
      maxMantissa, mantissaBits] <;> omega

/-- An integral value as a decimal without fractional digits. -/
def ofIntegral (n : Integral) : Decimal := ⟨n.value, 0, natAbs_integral_le n, Nat.zero_le _⟩

/-- Zero without fractional digits. -/
def zero : Decimal := ⟨0, 0, Nat.zero_le _, Nat.zero_le _⟩

instance : Inhabited Decimal := ⟨zero⟩

/-- Zero of any scale. -/
def isZero (d : Decimal) : Bool := d.mantissa == 0

/-- Whether the number is below zero. -/
def isNegative (d : Decimal) : Bool := d.mantissa < 0

end Decimal

end LiteralForm
