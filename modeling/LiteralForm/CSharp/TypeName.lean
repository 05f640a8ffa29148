/-
Types as C# writes them.

`CSharp.namer full` writes built-in types by their keywords, a nullable type with a question
mark and named types with their keyword-like names escaped; the namespace stands in front
only when `full` is set.  Rank specifiers read from the outermost array to the innermost, so
an array of two-dimensional arrays of `int` is `int[][,]`.
-/
import LiteralForm.CSharp.Keywords
import LiteralForm.Type.Namer

namespace LiteralForm.CSharp

/-- The keyword of an integral kind. -/
def intKeyword : IntKind → String
  | .byte => "byte"
  | .sbyte => "sbyte"
  | .int16 => "short"
  | .uint16 => "ushort"
  | .int32 => "int"
  | .uint32 => "uint"
  | .int64 => "long"
  | .uint64 => "ulong"

/-- The keyword of a built-in type. -/
def keyword : Primitive → String
  | .object => "object"
  | .string => "string"
  | .char => "char"
  | .bool => "bool"
  | .integral k => intKeyword k
  | .float32 => "float"
  | .float64 => "double"
  | .decimal => "decimal"
  | .void => "void"

/-- The rank specifier of one array, with one comma less than dimensions. -/
def rankSpecifier (rank : UInt8) : String :=
  "[" ++ String.ofList (List.replicate (rank.toNat - 1) ',') ++ "]"

/-- The namespace and the dot after it, if names are written in full. -/
def qualifier (full : Bool) (path : Option String) : String :=
  match full, path with
  | true, some p => p ++ "."
  | _, _ => ""

/-- The way C# writes types, with or without namespaces. -/
def namer (full : Bool) : Namer where
  primitive := keyword
  nullable inner := inner ++ "?"
  array element ranks := element ++ String.join (ranks.map rankSpecifier)
  named path name args := qualifier full path ++ genericName (naming.safeName name) args
  member := naming.safeName

end LiteralForm.CSharp
