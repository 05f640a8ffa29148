/-
Enum literals.

A value is written as a declared constant, as a combination of flags, or as a cast of its
number.  `EnumValue.form` chooses among the three and `EnumValue.literal` writes the choice.  The
number in a cast is the one of the underlying range, and a negative one stands in parentheses,
since `(T)-1` would read as a subtraction.
-/
import LiteralForm.Enum.Flags
import LiteralForm.Event
import LiteralForm.Type.Namer

namespace LiteralForm

/-- The form in which an enum value is written. -/
inductive EnumForm
  | constant (name : String)
  | combination (names : List String)
  | cast (number : Int)
  deriving DecidableEq, Repr

/-- The form of a value: its name, the flags that cover it, or its number. -/
def EnumValue.form (v : EnumValue) : EnumForm :=
  let number := v.type.normalize v.raw.val
  match v.type.nameOf number with
  | some name => .constant name
  | none =>
    match v.type.decompose number with
    | none | some [] => .cast number
    | some [name] => .constant name
    | some names => .combination names

/-- A cast of a number to the named type. -/
def numericCast (typeName : String) (number : Int) : String :=
  if number < 0 then "((" ++ typeName ++ ")(" ++ toString number ++ "))"
  else "((" ++ typeName ++ ")" ++ toString number ++ ")"

/-- A form as code. -/
def EnumForm.render (n : Namer) (typeName : String) : EnumForm → String
  | .constant name => typeName ++ "." ++ n.member name
  | .combination names =>
    "(" ++ String.intercalate " | " (names.map fun m => typeName ++ "." ++ n.member m) ++ ")"
  | .cast number => numericCast typeName number

/-- What a form is worth logging. -/
def EnumForm.events : EnumForm → List Event
  | .cast number => [.unnamedEnum number]
  | _ => []

/-- The literal of an enum value. -/
def EnumValue.literal (n : Namer) (v : EnumValue) : String :=
  v.form.render n (n.nameOf v.type.type)

end LiteralForm
