/-
Reading the body of a quoted literal.

A body is a sequence of plain characters and of escapes: a simple escape such as `\n`, or an
escape by number with one to four (`\x`), four (`\u`) or eight (`\U`) hexadecimal digits.

* `unescape` gives the characters, or the first fault;
* `UnescapeError` names the fault, with the offset in bytes of the backslash where the digits
  or the number are to blame.

Design notes: an escape reports how many characters it takes after its letter.  These are all
hexadecimal digits, so the count is also the count of bytes, and the rest of the body is a
`drop` of the body itself.
-/

namespace LiteralForm.Text

/-- A fault in the body of a literal. -/
inductive UnescapeError
  /-- The body ends in a lone backslash. -/
  | dangling
  /-- No escape begins with this character. -/
  | unknownEscape (c : Char)
  /-- An escape by number has too few digits. -/
  | missingHexDigits (kind : Char) (offset : Nat)
  /-- The number of an escape is not that of a character. -/
  | invalidCodePoint (offset : Nat)
  deriving DecidableEq, Repr

/-- The wording of a fault. -/
def UnescapeError.message : UnescapeError → String
  | dangling => "dangling backslash at end of literal"
  | unknownEscape c => "unknown escape sequence '\\" ++ c.toString ++ "'"
  | missingHexDigits kind offset =>
    "escape '\\" ++ kind.toString ++ "' at offset " ++ toString offset ++ " is missing hex digits"
  | invalidCodePoint offset =>
    "escape at offset " ++ toString offset ++ " does not encode a valid character"

/-- What a simple escape stands for. -/
def simpleEscape? : Char → Option Char
  | '\\' => some '\\'
  | '\x22' => some '\x22'
  | '\x27' => some '\x27'
  | '0' => some '\x00'
  | 'a' => some '\x07'
  | 'b' => some '\x08'
  | 'f' => some '\x0c'
  | 'n' => some '\n'
  | 'r' => some '\r'
  | 't' => some '\t'
  | 'v' => some '\x0b'
  | _ => none

/-- The least and the greatest number of digits of an escape by number. -/
def digitBounds? : Char → Option (Nat × Nat)
  | 'x' => some (1, 4)
  | 'u' => some (4, 4)
  | 'U' => some (8, 8)
  | _ => none

/-- The value of a hexadecimal digit of either case. -/
def hexDigit? (c : Char) : Option Nat :=
  if '0' ≤ c ∧ c ≤ '9' then some (c.toNat - 48)
  else if 'a' ≤ c ∧ c ≤ 'f' then some (c.toNat - 87)
  else if 'A' ≤ c ∧ c ≤ 'F' then some (c.toNat - 55)
  else none

/-- The number that a list of hexadecimal digits denotes. -/
def hexNumber (digits : List Char) : Nat :=
  digits.foldl (fun n c => n * 16 + (hexDigit? c).getD 0) 0

/-- The character with the given number, unless the number is a surrogate or too large. -/
def charOfNumber? (n : Nat) : Option Char :=
  if n.isValidChar then some (Char.ofNat n) else none

/-- Reads the escape that begins with `kind` and goes on in `rest`: the character it stands
for and the number of characters of `rest` that belong to it. -/
def readEscape (offset : Nat) (kind : Char) (rest : List Char) :
    Except UnescapeError (Char × Nat) :=
  match simpleEscape? kind with
  | some c => .ok (c, 0)
  | none =>
    match digitBounds? kind with
    | none => .error (.unknownEscape kind)
    | some (least, most) =>
      let digits := (rest.take most).takeWhile fun c => (hexDigit? c).isSome
      if digits.length < least then .error (.missingHexDigits kind offset)
      else
        match charOfNumber? (hexNumber digits) with
        | some c => .ok (c, digits.length)
        | none => .error (.invalidCodePoint offset)

/-- Reads a body that begins at the given offset in bytes. -/
def unescapeFrom (offset : Nat) (body : List Char) : Except UnescapeError (List Char) :=
  match body with
  | [] => .ok []
  | c :: rest =>
    if c ≠ '\\' then
      match unescapeFrom (offset + c.utf8Size) rest with
      | .ok s => .ok (c :: s)
      | .error e => .error e
    else
      match rest with
      | [] => .error .dangling
      | kind :: rest =>
        match readEscape offset kind rest with
        | .error e => .error e
        | .ok (d, taken) =>
          -- The backslash, the letter and the digits of an escape take one byte each.
          match unescapeFrom (offset + 2 + taken) (rest.drop taken) with
          | .ok s => .ok (d :: s)
          | .error e => .error e
termination_by body.length

/-- The characters that the body of a quoted literal denotes. -/
def unescape (body : List Char) : Except UnescapeError (List Char) := unescapeFrom 0 body

end LiteralForm.Text
