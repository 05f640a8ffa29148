/-
The built-in types that a described program can mention.

`Primitive.name` is the neutral name of a built-in type, `Primitive.tag` its spelling in
documents.  Both are one-to-one; `ofTag?_tag` reads a tag back.
-/
import LiteralForm.Integer

namespace LiteralForm

/-- A built-in type.  The integral ones are the types of the eight integral kinds. -/
inductive Primitive
  | object
  | string
  | char
  | bool
  | integral (kind : IntKind)
  | float32
  | float64
  | decimal
  | void
  deriving DecidableEq, Repr

/-- The neutral name of an integral kind. -/
def IntKind.name : IntKind → String
  | .byte => "byte"
  | .sbyte => "sbyte"
  | .int16 => "int16"
  | .uint16 => "uint16"
  | .int32 => "int32"
  | .uint32 => "uint32"
  | .int64 => "int64"
  | .uint64 => "uint64"

/-- The spelling of an integral kind in documents. -/
def IntKind.tag : IntKind → String
  | .byte => "byte"
  | .sbyte => "s_byte"
  | .int16 => "int16"
  | .uint16 => "u_int16"
  | .int32 => "int32"
  | .uint32 => "u_int32"
  | .int64 => "int64"
  | .uint64 => "u_int64"

/-- The integral kinds, narrow ones first. -/
def IntKind.all : List IntKind :=
  [.byte, .sbyte, .int16, .uint16, .int32, .uint32, .int64, .uint64]

namespace Primitive

/-- The neutral name of a built-in type. -/
def name : Primitive → String
  | object => "object"
  | string => "string"
  | char => "char"
  | bool => "bool"
  | integral k => k.name
  | float32 => "float32"
  | float64 => "float64"
  | decimal => "decimal"
  | void => "void"

/-- The spelling of a built-in type in documents. -/
def tag : Primitive → String
  | integral k => k.tag
  | p => p.name

/-- The integral kind of a built-in type, if it has one. -/
def intKind? : Primitive → Option IntKind
  | integral k => some k
  | _ => none

/-- Every built-in type. -/
def all : List Primitive :=
  [object, string, char, bool] ++ IntKind.all.map integral ++ [float32, float64, decimal, void]

/-- The built-in type with the given tag. -/
def ofTag? (s : String) : Option Primitive :=
  all.find? fun p => p.tag == s

theorem ofTag?_tag (p : Primitive) : ofTag? p.tag = some p := by
  cases p with
  | integral k => cases k <;> decide
  | _ => decide

end Primitive

end LiteralForm
