/-
Decimal numbers as text.

`text` writes a number with exactly as many fractional digits as its scale, and with a digit
before the point.  `parse` reads an optional sign, digits, and a point before, between or after
them; the number of digits after the point becomes the scale.

The faults are looked for in this order: a text that is no numeral, too many digits after the
point, a mantissa that is too large.
-/
import LiteralForm.Decimal.Basic
import LiteralForm.Numeral

namespace LiteralForm.Decimal

/-! ### Writing -/

/-- The digits of a number without its sign, with a point before the last `scale` ones. -/
def unsignedText (n scale : Nat) : List Char :=
  let digits := (Nat.toDigits 10 n).leftpad (scale + 1) '0'
  if scale = 0 then digits
  else digits.take (digits.length - scale) ++ '.' :: digits.drop (digits.length - scale)

/-- A number with its sign, a point and all its fractional digits. -/
def text (d : Decimal) : String :=
  String.ofList <|
    if d.isNegative then '-' :: unsignedText d.mantissa.natAbs d.scale
    else unsignedText d.mantissa.natAbs d.scale

/-- A decimal literal of C#. -/
def literal (d : Decimal) : String := d.text ++ "m"

/-! ### Reading -/

/-- The parts of a text before and after its first point. -/
def splitPoint (s : List Char) : List Char × List Char :=
  (s.takeWhile (· != '.'), (s.dropWhile (· != '.')).drop 1)

/-- Reads digits after the number `n`, as long as the number fits a mantissa. -/
def readMantissa (n : Nat) : List Char → Option Nat
  | [] => some n
  | c :: s =>
    let m := n * 10 + (c.toNat - '0'.toNat)
    if m ≤ maxMantissa then readMantissa m s else none

/-- Reads a decimal number. -/
def parse (s : String) : Except DecimalError Decimal :=
  let (negative, body) := Numeral.splitSign s.toList
  let (whole, fraction) := splitPoint body
  -- A second point is not a digit, so it makes the text no numeral.
  if (whole ++ fraction).isEmpty || !(whole ++ fraction).all Char.isDigit then
    .error (.invalid s)
  else if maxScale < fraction.length then .error (.scaleOutOfRange fraction.length)
  else
    match readMantissa 0 (whole ++ fraction) with
    | none => .error .overflow
    | some m => ofParts (if negative then -(m : Int) else m) fraction.length

end LiteralForm.Decimal
