/-
Integers, floats, booleans, dates and times of TOML.

These values are written as one word.  `scalar?` says what a word is: a word is read whole or not
at all, so there is no question of where a value ends.

An underscore may stand between two digits.  A decimal integer has an optional sign and no
leading zeros, the other bases have a lower-case mark in front and no sign.
-/
import LiteralForm.Numeral
import LiteralForm.Text.Unescape
import LiteralForm.Toml.Basic

namespace LiteralForm.Toml

/-! ### Digits with underscores -/

/-- Whether the word consists of digits, with single underscores between two of them. -/
def isGrouped (isDigit : Char → Bool) : List Char → Bool
  | [] => false
  | [c] => isDigit c
  | c :: '_' :: s => isDigit c && isGrouped isDigit s
  | c :: s => isDigit c && isGrouped isDigit s

/-- The number that grouped digits denote. -/
def groupedNumber (base : Nat) (s : List Char) : Nat :=
  s.foldl (fun n c => if c = '_' then n else n * base + (Text.hexDigit? c).getD 0) 0

/-- The number that grouped digits of a base denote, if they are such. -/
def digits? (base : Nat) (s : List Char) : Option Nat :=
  if isGrouped (fun c => (Text.hexDigit? c).any (· < base)) s then some (groupedNumber base s)
  else none

/-- The number that decimal digits without leading zeros denote. -/
def decimal? (s : List Char) : Option Nat :=
  match s with
  -- A zero stands alone.
  | '0' :: _ :: _ => none
  | s => digits? 10 s

/-- The value of an integer. -/
def integer? (s : List Char) : Option Int :=
  match s with
  | '0' :: 'x' :: s => (digits? 16 s).map Int.ofNat
  | '0' :: 'o' :: s => (digits? 8 s).map Int.ofNat
  | '0' :: 'b' :: s => (digits? 2 s).map Int.ofNat
  | s =>
    let (negative, body) := Numeral.splitSign s
    (decimal? body).map fun n => if negative then -(n : Int) else n

/-! ### Floats -/

/-- Whether the word is an exponent with its letter. -/
def isExponent : List Char → Bool
  | c :: s => (c == 'e' || c == 'E') && (digits? 10 (Numeral.splitSign s).2).isSome
  | [] => false

/-- Whether the word is a decimal integer with a fraction, an exponent or both, or the name of an
infinity or of no number. -/
def isFloat (s : List Char) : Bool :=
  let body := (Numeral.splitSign s).2
  let isMark (c : Char) : Bool := c == '.' || c == 'e' || c == 'E'
  let whole := body.takeWhile fun c => !isMark c
  body == "inf".toList || body == "nan".toList ||
    (decimal? whole).isSome &&
      match body.drop whole.length with
      | '.' :: s =>
        let fraction := s.takeWhile fun c => !isMark c
        let rest := s.drop fraction.length
        (digits? 10 fraction).isSome && (rest.isEmpty || isExponent rest)
      | rest => isExponent rest

/-! ### Dates and times -/

/-- The number that plain digits denote. -/
def plain? (s : List Char) : Option Nat :=
  if s.all Char.isDigit then some (Nat.ofDigitChars 10 s 0) else none

/-- The number of days of a month. -/
def daysInMonth (year month : Nat) : Nat :=
  if month = 2 then
    if year % 4 = 0 ∧ (year % 100 ≠ 0 ∨ year % 400 = 0) then 29 else 28
  else if month = 4 ∨ month = 6 ∨ month = 9 ∨ month = 11 then 30
  else 31

/-- Whether the word is a date. -/
def isDate : List Char → Bool
  | [a, b, c, d, '-', e, f, '-', g, h] =>
    match plain? [a, b, c, d], plain? [e, f], plain? [g, h] with
    | some year, some month, some day =>
      1 ≤ month && month ≤ 12 && 1 ≤ day && day ≤ daysInMonth year month
    | _, _, _ => false
  | _ => false

/-- Whether the digits are an hour and a minute. -/
def isHourMinute (hour minute : List Char) : Bool :=
  (plain? hour).any (· ≤ 23) && (plain? minute).any (· ≤ 59)

/-- What follows the fraction of a second that the word begins with, if there is one. -/
def afterFraction? : List Char → Option (List Char)
  | '.' :: s =>
    if (s.takeWhile Char.isDigit).isEmpty then none else some (s.dropWhile Char.isDigit)
  | s => some s

/-- What follows a time of day that the word begins with; the seconds may be missing. -/
def afterTime? : List Char → Option (List Char)
  | a :: b :: ':' :: c :: d :: ':' :: e :: f :: s =>
    if isHourMinute [a, b] [c, d] && (plain? [e, f]).any (· ≤ 60) then afterFraction? s else none
  | a :: b :: ':' :: c :: d :: s => if isHourMinute [a, b] [c, d] then some s else none
  | _ => none

/-- Whether the word is nothing, or a distance from universal time. -/
def isZone : List Char → Bool
  | [] | ['Z'] | ['z'] => true
  | [sign, a, b, ':', c, d] => (sign == '+' || sign == '-') && isHourMinute [a, b] [c, d]
  | _ => false

/-- Whether the character stands between a date and a time. -/
def isTimeMark (c : Char) : Bool := c == 'T' || c == 't' || c == ' '

/-- Whether the word is a date, a time or both. -/
def isDatetime (s : List Char) : Bool :=
  isDate s || afterTime? s == some [] ||
    isDate (s.take 10) &&
      match s.drop 10 with
      | mark :: s => isTimeMark mark && (afterTime? s).any isZone
      | [] => false

/-! ### Words -/

/-- The value that a word denotes. -/
def scalar? (s : List Char) : Option Toml :=
  if s = "true".toList then some (boolean true)
  else if s = "false".toList then some (boolean false)
  else
    match integer? s with
    | some n => some (integer n)
    | none => if isFloat s then some float else if isDatetime s then some datetime else none

/-- The characters of words. -/
def isWordChar (c : Char) : Bool :=
  c.isAlphanum || c == '+' || c == '-' || c == '_' || c == '.' || c == ':'

/-- Splits a text after the word that it begins with.  A date and a time with a blank between
them are one word. -/
def splitWord (s : List Char) : List Char × List Char :=
  let word := s.takeWhile isWordChar
  let rest := s.dropWhile isWordChar
  match rest with
  | ' ' :: time =>
    if isDate word && (afterTime? (time.takeWhile isWordChar)).isSome then
      (word ++ ' ' :: time.takeWhile isWordChar, time.dropWhile isWordChar)
    else (word, rest)
  | _ => (word, rest)

end LiteralForm.Toml
