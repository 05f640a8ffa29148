/-
Floating-point literals.

A finite number is written with the fewest digits that read back.  Numbers of ordinary size are
positional; large ones and those below `0.0001` are scientific.  A literal always has a digit
after the point, so that it is not taken for an integer, and infinities and NaN are named
constants of their type.

The two widths become scientific at different sizes: a number of 64 bits past the greatest
unsigned integer of 32 bits, a number of 32 bits from `2 ^ 24` on, where its fraction no longer
holds all integers.
-/
import LiteralForm.Float.Notation
import LiteralForm.Integer

namespace LiteralForm

/-! Powers of natural numbers are the built-in ones, whatever else is imported. -/
attribute [local instance (2000)] instPowNat

/-- A floating-point value as it is written. -/
inductive FloatLiteral
  | nan
  | positiveInfinity
  | negativeInfinity
  | finite (numeral : Numeral)
  deriving DecidableEq, Repr

namespace FloatLiteral

/-- The name of the constant, or of the class of the finite literals. -/
def className : FloatLiteral → String
  | nan => "NaN"
  | positiveInfinity => "PositiveInfinity"
  | negativeInfinity => "NegativeInfinity"
  | finite _ => "Finite"

/-- The literal as code: a constant of the named type, or digits and a suffix. -/
def render (typeName suffix : String) : FloatLiteral → String
  | finite n => String.ofList (n.text false) ++ suffix
  | special => typeName ++ "." ++ special.className

/-- A nonzero magnitude below the number of 64 bits that is nearest to `0.0001`. -/
def isTiny (f : FloatFormat) (m : Nat) : Bool :=
  m != 0 &&
    f.units m * 2 ^ FloatFormat.double.unitExponent
      < FloatFormat.double.units (FloatFormat.double.round 1 10000) * 2 ^ f.unitExponent

/-- Whether a magnitude of 64 bits is written with an exponent. -/
def double.isScientific (m : Nat) : Bool :=
  (2 ^ IntKind.uint32.width - 1) * 2 ^ FloatFormat.double.unitExponent
      < FloatFormat.double.units m
    || isTiny .double m

/-- Whether a magnitude of 32 bits is written with an exponent. -/
def single.isScientific (m : Nat) : Bool :=
  2 ^ (FloatFormat.single.fractionBits + 1) * 2 ^ FloatFormat.single.unitExponent
      ≤ FloatFormat.single.units m
    || isTiny .single m

/-- The numeral of a finite number, in the notation that its magnitude asks for. -/
def numeralOf {f : FloatFormat} (isScientific : Nat → Bool) (x : BinaryFloat f) : Numeral :=
  if x.isZero then .zero x.negative
  else
    let digits := f.shortest .up x.magnitude
    if isScientific x.magnitude then digits.scientific x.negative true
    else digits.positional x.negative

/-- The literal of a pattern. -/
def ofPattern {f : FloatFormat} (isScientific : Nat → Bool) (x : BinaryFloat f) :
    FloatLiteral :=
  if x.isNaN then nan
  else if x.isInfinite then if x.negative then negativeInfinity else positiveInfinity
  else finite (numeralOf isScientific x)

/-- The literal of a number of 64 bits. -/
def ofDouble (x : BinaryFloat .double) : FloatLiteral := ofPattern double.isScientific x

/-- The literal of a number of 32 bits. -/
def ofSingle (x : BinaryFloat .single) : FloatLiteral := ofPattern single.isScientific x

end FloatLiteral

end LiteralForm
