/-
Decimal numerals as text.

A `Numeral` is a sign, digits before the point, digits after it and an optional power of ten.

* `text` writes it; a numeral without digits after the point is written without the point, and
  formats differ in whether an exponent that is not negative has a plus sign;
* `splitMinus` and `splitSign` take a sign off a text, for the readers of numerals.
-/

namespace LiteralForm

/-- A power of ten, as it is written after the `e`. -/
structure Numeral.Exponent where
  negative : Bool
  digits : List Char
  deriving DecidableEq, Repr

/-- A decimal numeral. -/
structure Numeral where
  negative : Bool
  whole : List Char
  fraction : List Char
  exponent : Option Numeral.Exponent
  deriving DecidableEq, Repr

namespace Numeral

/-- A minus sign, if there is one to write. -/
def signText (negative : Bool) : List Char := if negative then ['-'] else []

/-- The exponent of the given value. -/
def Exponent.ofInt (n : Int) : Exponent := ⟨n < 0, Nat.toDigits 10 n.natAbs⟩

/-- The value of an exponent. -/
def Exponent.value (e : Exponent) : Int :=
  if e.negative then -(Nat.ofDigitChars 10 e.digits 0 : Int) else Nat.ofDigitChars 10 e.digits 0

/-- The text of an exponent, with a sign in any case if `plus` is set. -/
def Exponent.text (plus : Bool) (e : Exponent) : List Char :=
  'e' :: (if plus && !e.negative then ['+'] else signText e.negative) ++ e.digits

/-- The text of a numeral; `plus` is for its exponent. -/
def text (plus : Bool) (n : Numeral) : List Char :=
  signText n.negative ++ n.whole
    ++ (if n.fraction.isEmpty then [] else '.' :: n.fraction)
    ++ (n.exponent.map (Exponent.text plus)).getD []

/-- The numeral of an integer. -/
def ofInt (n : Int) : Numeral := ⟨n < 0, Nat.toDigits 10 n.natAbs, [], none⟩

/-- Takes an optional minus sign off a text; the first part says whether there is one. -/
def splitMinus : List Char → Bool × List Char
  | '-' :: s => (true, s)
  | s => (false, s)

/-- Takes an optional sign off a text; the first part says whether it is a minus. -/
def splitSign : List Char → Bool × List Char
  | '-' :: s => (true, s)
  | '+' :: s => (false, s)
  | s => (false, s)

end Numeral

end LiteralForm
