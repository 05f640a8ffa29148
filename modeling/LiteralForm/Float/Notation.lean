/-
Positional and scientific notation.

Both notations write the digits of a decimal `c · 10 ^ k` as a numeral, with at least one digit
before the point and one after it in positional notation, and exactly one before it in
scientific notation.
-/
import LiteralForm.Float.Shortest
import LiteralForm.Numeral

namespace LiteralForm

namespace Scientific

/-- The digits of the number. -/
def digitText (s : Scientific) : List Char := Nat.toDigits 10 s.digits

/-- The position of the point, counted from before the first digit. -/
def pointPosition (s : Scientific) : Int := s.digitText.length + s.power

/-- All digits around the point: `1200.0`, `0.012`. -/
def positional (s : Scientific) (negative : Bool) : Numeral :=
  if 0 ≤ s.power then
    ⟨negative, s.digitText ++ List.replicate s.power.toNat '0', ['0'], none⟩
  else
    let places := (-s.power).toNat
    let padded := s.digitText.leftpad (places + 1) '0'
    ⟨negative, padded.take (padded.length - places), padded.drop (padded.length - places), none⟩

/-- One digit before the point, the others after it: `1.2e3`.  A lone digit is followed by a
zero if `keepPoint` is set, and by no point otherwise. -/
def scientific (s : Scientific) (negative keepPoint : Bool) : Numeral :=
  let rest := s.digitText.drop 1
  ⟨negative, s.digitText.take 1, if rest.isEmpty && keepPoint then ['0'] else rest,
    some (.ofInt (s.pointPosition - 1))⟩

end Scientific

/-- The numeral of a zero. -/
def Numeral.zero (negative : Bool) : Numeral := ⟨negative, ['0'], ['0'], none⟩

end LiteralForm
