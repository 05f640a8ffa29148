/-
Strings of TOML.

There are four forms: between double quotes with escapes, between single quotes as they are, and
both again between three quotes, where lines may end inside.  The readers begin after the opening
quotes and end after the closing ones.

Between three quotes, one or two quotes in a row are part of the text, also directly before the
closing ones.  A backslash at the end of a line swallows all blanks and line ends that follow.
-/
import LiteralForm.Text.Unescape

namespace LiteralForm.Toml

/-- Whether the character may stand in a comment or, unescaped, in a string of one line. -/
def isPlainChar (c : Char) : Bool :=
  c == '\t' || (0x20 ≤ c.toNat && c.toNat != 0x7f)

/-- The blanks within a line. -/
def isBlank (c : Char) : Bool := c == ' ' || c == '\t'

/-- What an escape of one letter stands for. -/
def simpleEscape? : Char → Option Char
  | 'b' => some '\x08'
  | 't' => some '\t'
  | 'n' => some '\n'
  | 'e' => some '\x1b'
  | 'f' => some '\x0c'
  | 'r' => some '\r'
  | '\x22' => some '\x22'
  | '\\' => some '\\'
  | _ => none

/-- The character with the given hexadecimal number. -/
def hexChar? (digits : List Char) : Option Char :=
  if digits.all fun c => (Text.hexDigit? c).isSome then
    Text.charOfNumber? (Text.hexNumber digits)
  else none

/-- Puts a character in front of a text that has been read. -/
def consChar (c : Option Char) (r : Option (List Char × List Char)) :
    Option (List Char × List Char) :=
  match c, r with
  | some c, some (text, rest) => some (c :: text, rest)
  | _, _ => none

/-- Whether the text begins with a line end after blanks. -/
def beginsWithLineEnd (s : List Char) : Bool :=
  match s.dropWhile isBlank with
  | '\n' :: _ | '\r' :: '\n' :: _ => true
  | _ => false

/-- Reads a string between double quotes. -/
def readBasic : List Char → Option (List Char × List Char)
  | [] => none
  | '\x22' :: rest => some ([], rest)
  | '\\' :: 'x' :: a :: b :: rest => consChar (hexChar? [a, b]) (readBasic rest)
  | '\\' :: 'u' :: a :: b :: c :: d :: rest => consChar (hexChar? [a, b, c, d]) (readBasic rest)
  | '\\' :: 'U' :: a :: b :: c :: d :: e :: f :: g :: h :: rest =>
    consChar (hexChar? [a, b, c, d, e, f, g, h]) (readBasic rest)
  | '\\' :: c :: rest => consChar (simpleEscape? c) (readBasic rest)
  | c :: rest => consChar (if isPlainChar c && c != '\\' then some c else none) (readBasic rest)

/-- Reads a string between single quotes. -/
def readLiteral : List Char → Option (List Char × List Char)
  | [] => none
  | '\x27' :: rest => some ([], rest)
  | c :: rest => consChar (if isPlainChar c then some c else none) (readLiteral rest)

/-- Reads a string between three double quotes; `swallows` says that blanks and line ends are
being passed over. -/
def readLongBasic : Bool → List Char → Option (List Char × List Char)
  | _, [] => none
  -- Of five quotes in a row the first two, and of four the first one, are part of the text.
  | _, '\x22' :: '\x22' :: '\x22' :: '\x22' :: '\x22' :: rest => some (['\x22', '\x22'], rest)
  | _, '\x22' :: '\x22' :: '\x22' :: '\x22' :: rest => some (['\x22'], rest)
  | _, '\x22' :: '\x22' :: '\x22' :: rest => some ([], rest)
  | swallows, '\r' :: '\n' :: rest =>
    if swallows then readLongBasic true rest
    else consChar (some '\r') (consChar (some '\n') (readLongBasic false rest))
  | _, '\\' :: 'x' :: a :: b :: rest => consChar (hexChar? [a, b]) (readLongBasic false rest)
  | _, '\\' :: 'u' :: a :: b :: c :: d :: rest =>
    consChar (hexChar? [a, b, c, d]) (readLongBasic false rest)
  | _, '\\' :: 'U' :: a :: b :: c :: d :: e :: f :: g :: h :: rest =>
    consChar (hexChar? [a, b, c, d, e, f, g, h]) (readLongBasic false rest)
  | swallows, c :: rest =>
    if swallows ∧ (isBlank c ∨ c = '\n') then readLongBasic true rest
    else if c = '\\' then
      if beginsWithLineEnd rest then readLongBasic true rest
      else
        match rest with
        | [] => none
        | e :: rest => consChar (simpleEscape? e) (readLongBasic false rest)
    else
      consChar (if isPlainChar c || c == '\n' then some c else none) (readLongBasic false rest)

/-- Reads a string between three single quotes. -/
def readLongLiteral : List Char → Option (List Char × List Char)
  | [] => none
  | '\x27' :: '\x27' :: '\x27' :: '\x27' :: '\x27' :: rest => some (['\x27', '\x27'], rest)
  | '\x27' :: '\x27' :: '\x27' :: '\x27' :: rest => some (['\x27'], rest)
  | '\x27' :: '\x27' :: '\x27' :: rest => some ([], rest)
  | '\r' :: '\n' :: rest =>
    consChar (some '\r') (consChar (some '\n') (readLongLiteral rest))
  | c :: rest =>
    consChar (if isPlainChar c || c == '\n' then some c else none) (readLongLiteral rest)

/-- The text after a line end that it begins with. -/
def dropLineEnd : List Char → List Char
  | '\n' :: s => s
  | '\r' :: '\n' :: s => s
  | s => s

/-- Reads a string of any form, if the text begins with a quote. -/
def readQuoted? : List Char → Option (List Char × List Char)
  | '\x22' :: '\x22' :: '\x22' :: s => readLongBasic false (dropLineEnd s)
  | '\x22' :: s => readBasic s
  | '\x27' :: '\x27' :: '\x27' :: s => readLongLiteral (dropLineEnd s)
  | '\x27' :: s => readLiteral s
  | _ => none

end LiteralForm.Toml
