/-
Flags values as combinations of constants.

`decompose` covers the pattern of a value by the patterns of declared constants.  Constants are
tried from the greatest pattern down, those of equal patterns in order of declaration, and one is
taken when all its bits are still uncovered.  Patterns compare as unsigned numbers, so a constant
with the highest bit set is tried first.  The names taken are listed in ascending order of their
patterns; bits that no constant covers leave the value without a decomposition.
-/
import LiteralForm.Enum.Basic

namespace LiteralForm

/-- Takes from a list of named patterns those whose bits are still uncovered, one after another:
the names taken and the bits that remain. -/
def greedyCover (remaining : Nat) : List (String × Nat) → List String × Nat
  | [] => ([], remaining)
  | (name, pattern) :: rest =>
    if remaining &&& pattern = pattern then
      -- All bits of the pattern are set, so an exclusive or clears them.
      let (taken, left) := greedyCover (remaining ^^^ pattern) rest
      (name :: taken, left)
    else greedyCover remaining rest

namespace EnumType

/-- The constants with a nonzero pattern, in order of declaration. -/
def patterns (e : EnumType) : List (String × Nat) :=
  (e.constants.entries.map fun c => (c.1, e.bits c.2.val)).filter fun p => p.2 != 0

/-- The constants with a nonzero pattern, the greatest pattern first. -/
def candidates (e : EnumType) : List (String × Nat) :=
  e.patterns.mergeSort fun p q => q.2 ≤ p.2

/-- The constants that cover a value of a flags enum exactly, least pattern first. -/
def decompose (e : EnumType) (raw : Int) : Option (List String) :=
  if e.isFlags then
    let (taken, left) := greedyCover (e.bits raw) e.candidates
    -- The greatest pattern was taken first.
    if left = 0 then some taken.reverse else none
  else none

end EnumType

end LiteralForm
