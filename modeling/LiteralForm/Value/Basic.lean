/-
Runtime values.

A `Value` belongs to exactly one kind, and each kind has one rule for its literal.  `kind` names
the kind, `isZero` recognises the value that a variable of the kind starts with.  Strings, types
and methods are references that are not null, so they are never zero.
-/
import LiteralForm.Decimal.Basic
import LiteralForm.Enum.Basic
import LiteralForm.Float.Format

namespace LiteralForm

/-- A runtime value. -/
inductive Value
  | null
  | string (text : String)
  | char (c : Char)
  | decimal (number : Decimal)
  | float32 (number : BinaryFloat .single)
  | float64 (number : BinaryFloat .double)
  | integral (number : Integral)
  | bool (b : Bool)
  | enum (value : EnumValue)
  /-- A reference to a type itself. -/
  | type (type : TypeRef)
  /-- A reference to the methods of one name of a type. -/
  | method (declaringType : TypeRef) (name : String)
  /-- An instance of a value type, with its fields in order of declaration. -/
  | struct (type : TypeRef) (fields : List (String × Value))
  /-- A value that no literal can express. -/
  | unsupported (typeName : String)

namespace Value

/-- The name of the value's kind. -/
def kind : Value → String
  | null => "null"
  | string _ => "string"
  | char _ => "char"
  | decimal _ => "decimal"
  | float32 _ => "float32"
  | float64 _ => "float64"
  | integral n => n.kind.name
  | bool _ => "bool"
  | enum _ => "enum"
  | type _ => "type"
  | method .. => "method"
  | struct .. => "struct"
  | unsupported _ => "unsupported"

mutual

/-- Whether the value is the zero of its kind. -/
def isZero : Value → Bool
  | null => true
  | char c => c == '\x00'
  | decimal d => d.isZero
  | float32 x => x.isZero
  | float64 x => x.isZero
  | integral n => n.value == 0
  | bool b => !b
  | enum v => v.isZero
  | struct _ fields => allZero fields
  | string _ | type _ | method .. | unsupported _ => false

/-- Whether every field holds a zero. -/
def allZero : List (String × Value) → Bool
  | [] => true
  | (_, v) :: rest => v.isZero && allZero rest

end

end Value

end LiteralForm
