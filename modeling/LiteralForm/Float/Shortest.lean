/-
The fewest decimal digits that read back.

A decimal `c · 10 ^ k` reads back as a floating-point number when rounding it gives that number.
`shortest` walks down the powers of ten from one that exceeds the number.  On each grid of
multiples of a power it tries the two neighbours of the number; the first grid on which one of
them reads back decides.  Of two such neighbours the nearer one is taken, and an exact tie goes
as the `Tie` says.

* The grids are nested, so no coarser grid holds a decimal that reads back, and the digits
  found carry no trailing zero.
* The exact value of the number always reads back; it is the answer should no grid of the walk
  hold one, which keeps the function total.
-/
import LiteralForm.Float.Rounding

namespace LiteralForm

/-! Powers of natural numbers are the built-in ones, whatever else is imported. -/
attribute [local instance (2000)] instPowNat

/-- The positive number `digits · 10 ^ power`. -/
structure Scientific where
  digits : Nat
  power : Int
  deriving DecidableEq, Repr

namespace Scientific

/-- The number as a quotient of natural numbers. -/
def ratio (s : Scientific) : Nat × Nat :=
  if 0 ≤ s.power then (s.digits * 10 ^ s.power.toNat, 1)
  else (s.digits, 10 ^ (-s.power).toNat)

end Scientific

/-- The way an exact tie between two neighbours goes. -/
inductive Tie
  | up
  | even
  deriving DecidableEq, Repr

namespace FloatFormat

/-- Whether the decimal reads back as the magnitude `m`. -/
def readsBack (f : FloatFormat) (m : Nat) (s : Scientific) : Bool :=
  f.round s.ratio.1 s.ratio.2 == m

/-- The magnitude `m` divided by `10 ^ k`, as a quotient of natural numbers. -/
def scaledRatio (f : FloatFormat) (m : Nat) (k : Int) : Nat × Nat :=
  if 0 ≤ k then (f.units m, 2 ^ f.unitExponent * 10 ^ k.toNat)
  else (f.units m * 10 ^ (-k).toNat, 2 ^ f.unitExponent)

/-- Of the neighbours `a / b` and `a / b + 1` of a quotient, the nearer one. -/
def nearerNeighbour (tie : Tie) (a b : Nat) : Nat :=
  if 2 * (a % b) < b then a / b
  else if b < 2 * (a % b) then a / b + 1
  else
    match tie with
    | .up => a / b + 1
    | .even => a / b + a / b % 2

/-- The best decimal on the grid of multiples of `10 ^ k` that reads back as `m`. -/
def bestOnGrid? (f : FloatFormat) (tie : Tie) (m : Nat) (k : Int) : Option Scientific :=
  let (a, b) := f.scaledRatio m k
  -- The number lies between these two, and what reads back is an interval around the number:
  -- where both neighbours fail, every other point of the grid does.
  let below : Scientific := ⟨a / b, k⟩
  let above : Scientific := ⟨a / b + 1, k⟩
  match f.readsBack m below, f.readsBack m above with
  | true, true => some ⟨nearerNeighbour tie a b, k⟩
  | true, false => some below
  | false, true => some above
  | false, false => none

/-- The number of decimal digits of a natural number. -/
def digitCount (n : Nat) : Nat := (Nat.toDigits 10 n).length

/-- A power of ten that exceeds the magnitude `m`, by a factor of at most a hundred. -/
def topPower (f : FloatFormat) (m : Nat) : Int :=
  (digitCount (f.units m) : Int) - digitCount (2 ^ f.unitExponent) + 1

/-- The exact value of the magnitude `m`. -/
def exact (f : FloatFormat) (m : Nat) : Scientific :=
  ⟨f.units m * 5 ^ f.unitExponent, -(f.unitExponent : Int)⟩

/-- The number of grids that are tried: seventeen digits always suffice, and the walk begins
at most three grids too high. -/
def gridCount : Nat := 20

/-- The decimal with the fewest digits that reads back as the positive magnitude `m`. -/
def shortest (f : FloatFormat) (tie : Tie) (m : Nat) : Scientific :=
  ((List.range gridCount).findSome? fun (i : Nat) => f.bestOnGrid? tie m (f.topPower m - i)).getD
    (f.exact m)

end FloatFormat

end LiteralForm
