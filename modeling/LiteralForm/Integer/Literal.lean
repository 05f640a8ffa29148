/-
Integer literals.

A plain literal is an `int`.  Wider and unsigned types have a suffix of their own; the types
narrower than `int` have none and are written as a cast.
-/
import LiteralForm.Type.Namer

namespace LiteralForm

/-- The given digits as a literal of exactly the given type. -/
def integralLiteral (n : Namer) (p : Primitive) (digits : String) : String :=
  match p with
  | .integral .byte | .integral .sbyte | .integral .int16 | .integral .uint16 =>
    "((" ++ n.primitive p ++ ")" ++ digits ++ ")"
  | .integral .uint32 => digits ++ "U"
  | .integral .int64 => digits ++ "L"
  | .integral .uint64 => digits ++ "UL"
  | _ => digits

/-- The literal of an integral value. -/
def Integral.literal (n : Namer) (i : Integral) : String :=
  integralLiteral n (.integral i.kind) (toString i.value)

end LiteralForm
