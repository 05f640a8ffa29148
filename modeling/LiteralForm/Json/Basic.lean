/-
JSON documents.

A `Json` tree keeps numbers as the numerals that were written and the members of objects in
order, repeated keys included.  `Json.text` writes a tree without blanks, and the exponent of a
number with its sign.

Design notes: an escape in a document can leave a UTF-16 surrogate unpaired, and such a string
denotes no text.  It is still well-formed JSON, so a string and a key are an `Option`: `none`
stands for every string that denotes no text, and is written as a lone surrogate.
-/
import LiteralForm.Numeral
import LiteralForm.Text.Escape

namespace LiteralForm

/-- A JSON document. -/
inductive Json
  | null
  | bool (b : Bool)
  | number (n : Numeral)
  | string (text : Option String)
  | array (items : List Json)
  | object (members : List (Option String × Json))

namespace Json

/-- The string of the given text. -/
def ofString (s : String) : Json := .string (some s)

/-- The number of the given value. -/
def ofInt (n : Int) : Json := .number (.ofInt n)

/-- The object with the given members. -/
def ofFields (fs : List (String × Json)) : Json := .object (fs.map fun f => (some f.1, f.2))

/-! ### Writing -/

/-- A character inside a string. -/
def charText (c : Char) : List Char :=
  if c = '\x22' then ['\\', '\x22']
  else if c = '\\' then ['\\', '\\']
  else if c = '\x08' then ['\\', 'b']
  else if c = '\x0c' then ['\\', 'f']
  else if c = '\n' then ['\\', 'n']
  else if c = '\r' then ['\\', 'r']
  else if c = '\t' then ['\\', 't']
  else if c.toNat < 0x20 then '\\' :: 'u' :: Text.hex4 c.toNat
  else [c]

/-- A string with its quotes. -/
def stringText : Option String → List Char
  | some s => '\x22' :: s.toList.flatMap charText ++ ['\x22']
  | none => '\x22' :: '\\' :: 'u' :: Text.hex4 0xd800 ++ ['\x22']

mutual

/-- A document without blanks. -/
def chars : Json → List Char
  | null => "null".toList
  | bool b => if b then "true".toList else "false".toList
  | number n => n.text true
  | string s => stringText s
  | array items => '[' :: itemChars items ++ [']']
  | object members => '\x7b' :: memberChars members ++ ['\x7d']

/-- The items of an array, with commas between them. -/
def itemChars : List Json → List Char
  | [] => []
  | [j] => j.chars
  | j :: js => j.chars ++ ',' :: itemChars js

/-- The members of an object, with commas between them. -/
def memberChars : List (Option String × Json) → List Char
  | [] => []
  | [(k, j)] => stringText k ++ ':' :: j.chars
  | (k, j) :: ms => stringText k ++ ':' :: j.chars ++ ',' :: memberChars ms

end

/-- The text of a document. -/
def text (j : Json) : String := String.ofList j.chars

end Json

end LiteralForm
