/-
Numbers of JSON documents.

An integer is a numeral without point and exponent.  Every numeral can be read as a
floating-point number.  The reading keeps as many leading digits as fit 64 bits, rounds their
number once, and then multiplies or divides by powers of ten, rounding each time; a numeral past
the greatest finite number is refused.

In the other direction a number is written with the fewest digits that read back, an exact tie
going to the even digit, and in positional notation while its point stands near its digits.
-/
import LiteralForm.Float.Notation
import LiteralForm.Integer
import LiteralForm.Json.Basic

namespace LiteralForm

/-! Powers of natural numbers are the built-in ones, whatever else is imported. -/
attribute [local instance (2000)] instPowNat

namespace Numeral

/-! ### Integers -/

/-- The number that the digits before the point denote. -/
def wholeNumber (n : Numeral) : Nat := Nat.ofDigitChars 10 n.whole 0

/-- The value of a numeral without point and exponent. -/
def integer? (n : Numeral) : Option Int :=
  if n.fraction.isEmpty && n.exponent.isNone then
    some (if n.negative then -(n.wholeNumber : Int) else n.wholeNumber)
  else none

/-- Whether the numeral is a zero with a minus sign. -/
def isNegativeZero (n : Numeral) : Bool := n.negative && n.wholeNumber == 0

/-! ### Floating-point numbers -/

/-- The greatest number that leading digits may have. -/
def maxSignificand : Nat := 2 ^ IntKind.uint64.width - 1

/-- Appends digits to a number as long as it stays within bounds: the number, and how many
digits are left. -/
def keepDigits (n : Nat) : List Char → Nat × Nat
  | [] => (n, 0)
  | c :: s =>
    let m := n * 10 + (c.toNat - '0'.toNat)
    if m ≤ maxSignificand then keepDigits m s else (n, s.length + 1)

/-- The leading digits of a numeral and the power of ten that goes with them.  Digits before the
point that are not kept count as zeros; those after it are dropped. -/
def leading (n : Numeral) : Scientific :=
  let (whole, zeros) := keepDigits 0 n.whole
  let (digits, dropped) := keepDigits whole n.fraction
  ⟨digits, zeros - (n.fraction.length - dropped : Int) + (n.exponent.map Exponent.value).getD 0⟩

/-- The greatest power of ten that is a finite number of 64 bits. -/
def maxPower : Nat := 308

/-- Multiplies a magnitude of 64 bits by a power of ten, in steps that powers of at most
`10 ^ maxPower` allow. -/
def scaleByPower (m : Nat) (power : Int) : Option Nat :=
  let double := FloatFormat.double
  if power.natAbs ≤ maxPower then
    let factor := double.ofNat (10 ^ power.natAbs)
    if 0 ≤ power then
      let product := double.mul m factor
      if product < double.infinity then some product else none
    else some (double.div m factor)
  -- A zero stays zero however often it is scaled, also by a power that would be too large.
  else if m = 0 then some 0
  else if 0 ≤ power then none
  else scaleByPower (double.div m (double.ofNat (10 ^ maxPower))) (power + maxPower)
termination_by (-power).toNat
decreasing_by simp only [maxPower] at *; omega

/-- The number of 64 bits that the numeral is read as. -/
def toDouble? (n : Numeral) : Option (BinaryFloat .double) :=
  (scaleByPower (FloatFormat.double.ofNat n.leading.digits) n.leading.power).map
    (BinaryFloat.ofMagnitude n.negative)

/-- Whether the numeral is an integer that 64 bits hold, a negative zero not being one. -/
def isWord (n : Numeral) : Bool :=
  match n.integer? with
  | some v =>
    !n.isNegativeZero && (IntKind.int64.InRange v || IntKind.uint64.InRange v)
  | none => false

/-- The number of 32 bits that the numeral is read as: an integer of 64 bits is rounded once,
every other numeral by way of 64 bits. -/
def toSingle? (n : Numeral) : Option (BinaryFloat .single) :=
  if n.isWord then
    some (.ofMagnitude n.negative (FloatFormat.single.ofNat n.wholeNumber))
  else
    n.toDouble?.map fun x =>
      .ofMagnitude x.negative (FloatFormat.double.convert .single x.magnitude)

end Numeral

/-! ### Writing -/

/-- The positions of the point at which a number is written positionally: those after `low` and
up to `high`. -/
structure PointRange where
  low : Int
  high : Int

/-- The range for numbers of 64 bits. -/
def PointRange.double : PointRange := ⟨-5, 16⟩

/-- The range for numbers of 32 bits. -/
def PointRange.single : PointRange := ⟨-6, 13⟩

/-- A floating-point number as JSON; what is no number is null. -/
def Json.ofFloat {f : FloatFormat} (r : PointRange) (x : BinaryFloat f) : Json :=
  if !x.isFinite then .null
  else if x.isZero then .number (.zero x.negative)
  else
    let s := f.shortest .even x.magnitude
    if r.low < s.pointPosition ∧ s.pointPosition ≤ r.high then
      .number (s.positional x.negative)
    else .number (s.scientific x.negative false)

end LiteralForm
