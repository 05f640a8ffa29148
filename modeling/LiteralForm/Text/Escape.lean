/-
Escapes inside quoted literals.

Every character that would end the literal, break the line or be invisible is written as a
backslash escape; all others stand for themselves.  Escapes by number have a fixed width of
four digits, because a reader takes as many digits after `\x` as it can find.

* `escapeChar` writes one character, `escape` a whole text between double quotes;
* `escape_append`: a text is escaped character by character.
-/

namespace LiteralForm.Text

/-- The quotes around a literal. -/
inductive Quote
  | single
  | double
  deriving DecidableEq, Repr

/-- The control characters, U+0000 to U+001F and U+007F to U+009F. -/
def isControl (c : Char) : Bool :=
  c.toNat < 0x20 || (0x7f ≤ c.toNat && c.toNat ≤ 0x9f)

/-- The line and paragraph separators, which end a line inside a literal. -/
def isSeparator (c : Char) : Bool := c.toNat == 0x2028 || c.toNat == 0x2029

/-- Four hexadecimal digits of a number below 65536, in lower case. -/
def hex4 (n : Nat) : List Char :=
  [n / 4096 % 16, n / 256 % 16, n / 16 % 16, n % 16].map Nat.digitChar

/-- A character as it is written between the given quotes. -/
def escapeChar (q : Quote) (c : Char) : List Char :=
  if c = '\r' then ['\\', 'r']
  else if c = '\t' then ['\\', 't']
  else if c = '\n' then ['\\', 'n']
  -- Four digits, or a hexadecimal digit that follows would be taken for part of the number.
  else if isControl c then '\\' :: 'x' :: hex4 c.toNat
  else if isSeparator c then '\\' :: 'u' :: hex4 c.toNat
  else if c = '\\' then ['\\', '\\']
  else if c = '\x22' then ['\\', '\x22']
  else if c = '\x27' ∧ q = .single then ['\\', '\x27']
  else [c]

/-- A text as it is written between double quotes. -/
def escape (s : List Char) : List Char := s.flatMap (escapeChar .double)

@[simp] theorem escape_nil : escape [] = [] := rfl

@[simp] theorem escape_cons (c : Char) (s : List Char) :
    escape (c :: s) = escapeChar .double c ++ escape s := rfl

theorem escape_append (s t : List Char) : escape (s ++ t) = escape s ++ escape t := by
  simp [escape]

end LiteralForm.Text
