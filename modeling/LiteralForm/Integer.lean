/-
Fixed-width integers.

* `IntKind` is one of the eight integral kinds; `minValue` and `maxValue` bound its range;
* `IntKind.wrap` sends every integer to the one integer of the range that has the same
  bits (`wrap_inRange`, `wrap_emod`);
* `Integral` is an integer stored in a kind, and `Int128` a wide integer that can hold
  the value of every kind.

Design notes: values stay mathematical integers and carry a proof of their range, so that
arithmetic on them is plain `Int` arithmetic and `omega` can finish most goals.
-/

namespace LiteralForm

/-! Powers of natural numbers are the built-in ones, whatever else is imported. -/
attribute [local instance (2000)] instPowNat

/-- The eight integral kinds. -/
inductive IntKind
  | byte
  | sbyte
  | int16
  | uint16
  | int32
  | uint32
  | int64
  | uint64
  deriving DecidableEq, Repr

namespace IntKind

/-- The number of bits a value of the kind takes. -/
def width : IntKind → Nat
  | byte | sbyte => 8
  | int16 | uint16 => 16
  | int32 | uint32 => 32
  | int64 | uint64 => 64

/-- Whether the kind holds negative values. -/
def isSigned : IntKind → Bool
  | sbyte | int16 | int32 | int64 => true
  | byte | uint16 | uint32 | uint64 => false

/-- The least value of the kind. -/
def minValue (k : IntKind) : Int :=
  if k.isSigned then -(2 ^ (k.width - 1) : Nat) else 0

/-- The greatest value of the kind. -/
def maxValue (k : IntKind) : Int :=
  (2 ^ (if k.isSigned then k.width - 1 else k.width) : Nat) - 1

/-- The integer `n` fits the kind. -/
def InRange (k : IntKind) (n : Int) : Prop := k.minValue ≤ n ∧ n ≤ k.maxValue

instance (k : IntKind) (n : Int) : Decidable (k.InRange n) :=
  inferInstanceAs (Decidable (_ ∧ _))

/-- The integer of the kind's range that has the same low bits as `n`. -/
def wrap (k : IntKind) (n : Int) : Int :=
  if k.isSigned then Int.bmod n (2 ^ k.width) else n % (2 ^ k.width : Nat)

theorem wrap_inRange (k : IntKind) (n : Int) : k.InRange (k.wrap n) := by
  cases k <;> simp [InRange, wrap, minValue, maxValue, isSigned, width, Int.bmod] <;> omega

theorem wrap_emod (k : IntKind) (n : Int) :
    k.wrap n % (2 ^ k.width : Nat) = n % (2 ^ k.width : Nat) := by
  cases k <;> simp [wrap, isSigned, width, Int.bmod] <;> omega

/-- A value of the range is its own representative. -/
theorem wrap_eq_self {k : IntKind} {n : Int} (h : k.InRange n) : k.wrap n = n := by
  revert h
  cases k <;> simp [InRange, wrap, minValue, maxValue, isSigned, width, Int.bmod] <;> omega

end IntKind

/-- An integer stored in one of the eight kinds. -/
structure Integral where
  kind : IntKind
  value : Int
  inRange : kind.InRange value
  deriving DecidableEq

/-- The integer `n` stored in the kind `k`, if it fits. -/
def Integral.ofInt? (k : IntKind) (n : Int) : Option Integral :=
  if h : k.InRange n then some ⟨k, n, h⟩ else none

/-- The number of bits of a wide integer. -/
def Int128.width : Nat := 128

/-- The least number that is too large for a wide integer. -/
def Int128.bound : Nat := 2 ^ (width - 1)

/-- A signed integer of 128 bits. -/
structure Int128 where
  val : Int
  lower : -(Int128.bound : Int) ≤ val
  upper : val < Int128.bound
  deriving DecidableEq

/-- The integer `n` as a wide integer, if it fits. -/
def Int128.ofInt? (n : Int) : Option Int128 :=
  if h : -(bound : Int) ≤ n ∧ n < bound then some ⟨n, h.1, h.2⟩ else none

end LiteralForm
