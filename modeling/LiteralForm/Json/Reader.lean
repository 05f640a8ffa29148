/-
Reading JSON.

`Json.parse` reads a whole document strictly: no raw control characters in strings, no leading
zeros, no trailing commas, and nothing but blanks around the document.

Design notes: the readers of the parts take the text that is left and return what remains of it.
The readers of values call one another to any depth and count down a number of calls; a text of
`n` characters never needs more than `2 * n + 2`, since two calls in a row take a character.
-/
import LiteralForm.Json.Basic
import LiteralForm.Text.Unescape

namespace LiteralForm.Json

/-- The blanks of JSON. -/
def isBlank (c : Char) : Bool := c == ' ' || c == '\n' || c == '\r' || c == '\t'

/-- The text after its leading blanks. -/
def skipBlanks (s : List Char) : List Char := s.dropWhile isBlank

/-! ### Strings -/

/-- What an escape of one letter stands for. -/
def simpleEscape? : Char → Option Char
  | '\x22' => some '\x22'
  | '\\' => some '\\'
  | '/' => some '/'
  | 'b' => some '\x08'
  | 'f' => some '\x0c'
  | 'n' => some '\n'
  | 'r' => some '\r'
  | 't' => some '\t'
  | _ => none

/-- The number of four hexadecimal digits. -/
def hexUnit? (digits : List Char) : Option Nat :=
  if digits.length = 4 ∧ digits.all fun c => (Text.hexDigit? c).isSome then
    some (Text.hexNumber digits)
  else none

/-- Reads a string after its opening quote, up to and with the closing one.  The result lists
the numbers of the characters and of the UTF-16 units that are written by number. -/
def readUnits : List Char → Option (List Nat × List Char)
  | [] => none
  | '\x22' :: rest => some ([], rest)
  | '\\' :: 'u' :: a :: b :: c :: d :: rest =>
    match hexUnit? [a, b, c, d] with
    | none => none
    | some unit => (readUnits rest).map fun r => (unit :: r.1, r.2)
  | '\\' :: e :: rest =>
    match simpleEscape? e with
    | none => none
    | some c => (readUnits rest).map fun r => (c.toNat :: r.1, r.2)
  | c :: rest =>
    if c = '\\' ∨ c.toNat < 0x20 then none
    else (readUnits rest).map fun r => (c.toNat :: r.1, r.2)

/-- Whether a unit is the first half of a pair of surrogates. -/
def isHighSurrogate (n : Nat) : Bool := 0xd800 ≤ n && n ≤ 0xdbff

/-- Whether a unit is the second half of a pair of surrogates. -/
def isLowSurrogate (n : Nat) : Bool := 0xdc00 ≤ n && n ≤ 0xdfff

/-- The characters of a list of units, unless a surrogate is unpaired. -/
def pairSurrogates : List Nat → Option (List Char)
  | [] => some []
  | [n] => (Text.charOfNumber? n).map fun c => [c]
  | high :: low :: rest =>
    -- A unit that is no surrogate stands for itself; an unpaired one stands for nothing.
    if isHighSurrogate high ∧ isLowSurrogate low then
      -- Each half carries ten bits below its mark.
      match Text.charOfNumber? (0x10000 + high % 0x400 * 0x400 + low % 0x400) with
      | some c => (pairSurrogates rest).map fun s => c :: s
      | none => none
    else
      match Text.charOfNumber? high with
      | some c => (pairSurrogates (low :: rest)).map fun s => c :: s
      | none => none

/-- Reads a string after its opening quote. -/
def readString (s : List Char) : Option (Option String × List Char) :=
  (readUnits s).map fun r => ((pairSurrogates r.1).map String.ofList, r.2)

/-! ### Numbers -/

/-- Splits a text after its leading digits. -/
def splitDigits (s : List Char) : List Char × List Char :=
  (s.takeWhile Char.isDigit, s.dropWhile Char.isDigit)

/-- Reads the digits before the point: a lone zero, or digits that do not begin with one. -/
def readWhole (s : List Char) : Option (List Char × List Char) :=
  match s with
  | '0' :: rest => some (['0'], rest)
  | s =>
    let (digits, rest) := splitDigits s
    if digits.isEmpty then none else some (digits, rest)

/-- Reads a point and the digits after it, if there is a point. -/
def readFraction (s : List Char) : Option (List Char × List Char) :=
  match s with
  | '.' :: rest =>
    let (digits, rest) := splitDigits rest
    if digits.isEmpty then none else some (digits, rest)
  | s => some ([], s)

/-- Reads an exponent, if there is one. -/
def readExponent (s : List Char) : Option (Option Numeral.Exponent × List Char) :=
  match s with
  | c :: rest =>
    if c = 'e' ∨ c = 'E' then
      let (negative, rest) := Numeral.splitSign rest
      let (digits, rest) := splitDigits rest
      if digits.isEmpty then none else some (some ⟨negative, digits⟩, rest)
    else some (none, c :: rest)
  | [] => some (none, [])

/-- Reads a number. -/
def readNumber (s : List Char) : Option (Numeral × List Char) :=
  let (negative, s) := Numeral.splitMinus s
  (readWhole s).bind fun (whole, s) =>
    (readFraction s).bind fun (fraction, s) =>
      (readExponent s).map fun (exponent, s) => (⟨negative, whole, fraction, exponent⟩, s)

/-! ### Documents -/

/-- The text after a word that it begins with. -/
def dropWord? : List Char → List Char → Option (List Char)
  | [], s => some s
  | w :: ws, c :: s => if w = c then dropWord? ws s else none
  | _ :: _, [] => none

mutual

/-- Reads a value, after blanks. -/
def readValue : Nat → List Char → Option (Json × List Char)
  | 0, _ => none
  | calls + 1, s =>
    match skipBlanks s with
    | '\x7b' :: rest =>
      match skipBlanks rest with
      | '\x7d' :: rest => some (object [], rest)
      | rest => (readMembers calls rest).map fun (ms, rest) => (object ms, rest)
    | '[' :: rest =>
      match skipBlanks rest with
      | ']' :: rest => some (array [], rest)
      | rest => (readItems calls rest).map fun (js, rest) => (array js, rest)
    | '\x22' :: rest => (readString rest).map fun (t, rest) => (string t, rest)
    | 'n' :: rest => (dropWord? "ull".toList rest).map fun rest => (null, rest)
    | 't' :: rest => (dropWord? "rue".toList rest).map fun rest => (bool true, rest)
    | 'f' :: rest => (dropWord? "alse".toList rest).map fun rest => (bool false, rest)
    | s => (readNumber s).map fun (n, rest) => (number n, rest)

/-- Reads the items of an array, up to and with its closing bracket. -/
def readItems : Nat → List Char → Option (List Json × List Char)
  | 0, _ => none
  | calls + 1, s =>
    match readValue calls s with
    | none => none
    | some (j, rest) =>
      match skipBlanks rest with
      | ',' :: rest => (readItems calls rest).map fun (js, rest) => (j :: js, rest)
      | ']' :: rest => some ([j], rest)
      | _ => none

/-- Reads the members of an object, up to and with its closing bracket. -/
def readMembers : Nat → List Char → Option (List (Option String × Json) × List Char)
  | 0, _ => none
  | calls + 1, s =>
    match skipBlanks s with
    | '\x22' :: rest =>
      match readString rest with
      | none => none
      | some (key, rest) =>
        match skipBlanks rest with
        | ':' :: rest =>
          match readValue calls rest with
          | none => none
          | some (j, rest) =>
            match skipBlanks rest with
            | ',' :: rest => (readMembers calls rest).map fun (ms, rest) => ((key, j) :: ms, rest)
            | '\x7d' :: rest => some ([(key, j)], rest)
            | _ => none
        | _ => none
    | _ => none

end

/-- The document that a text is. -/
def parse (s : String) : Option Json :=
  match readValue (2 * s.toList.length + 2) s.toList with
  | some (j, rest) => if (skipBlanks rest).isEmpty then some j else none
  | none => none

end LiteralForm.Json
