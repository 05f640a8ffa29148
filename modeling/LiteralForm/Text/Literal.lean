/-
String and character literals.

A string is written between double quotes with escapes, or verbatim as `@"…"`, where only the
double quote is doubled.  Verbatim form is chosen once the text holds more than a threshold of
characters that the quoted form would write with a backslash; the carriage return is not
counted, since line ends alone do not make a text unreadable.

* `prefersVerbatim` stops at the character that exceeds the threshold;
* `charLiteral?` refuses characters outside the Basic Multilingual Plane, because a character
  literal holds one UTF-16 unit.
-/
import LiteralForm.Text.Escape

namespace LiteralForm.Text

/-- The characters that count towards verbatim form: controls other than the carriage return,
and the backslash. -/
def isBusy (c : Char) : Bool := (c.toNat < 0x20 && c != '\r') || c == '\\'

/-- Whether more than `threshold` characters of the text count towards verbatim form. -/
def prefersVerbatim : Nat → List Char → Bool
  | _, [] => false
  | 0, c :: s => isBusy c || prefersVerbatim 0 s
  | threshold + 1, c :: s =>
    if isBusy c then prefersVerbatim threshold s else prefersVerbatim (threshold + 1) s

/-- A text with each double quote doubled. -/
def doubleQuotes (s : List Char) : List Char :=
  s.flatMap fun c => if c = '\x22' then ['\x22', '\x22'] else [c]

/-- The quoted form of a string. -/
def quoted (s : List Char) : List Char := '\x22' :: escape s ++ ['\x22']

/-- The verbatim form of a string. -/
def verbatim (s : List Char) : List Char := '@' :: '\x22' :: doubleQuotes s ++ ['\x22']

/-- A string literal in the form that the threshold asks for. -/
def stringLiteral (threshold : Nat) (s : String) : String :=
  String.ofList <|
    if prefersVerbatim threshold s.toList then verbatim s.toList else quoted s.toList

/-- A character literal, for the characters that have one. -/
def charLiteral? (c : Char) : Option String :=
  if c.toNat ≤ 0xffff then
    some (String.ofList ('\x27' :: escapeChar .single c ++ ['\x27']))
  else none

end LiteralForm.Text
