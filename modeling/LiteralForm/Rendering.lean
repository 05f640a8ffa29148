/-
Values as code.

A `Renderer` is a way to name types and a set of options.  `render` gives the literal of a
value, or none where the value has no literal, together with the events worth logging; a value
without a literal is always reported.

The declared type of a value matters for `null` alone: where it is known and is not the
universal object type, `null` is written as the default of the type.
-/
import LiteralForm.CSharp.TypeName
import LiteralForm.Decimal.Text
import LiteralForm.Enum.Literal
import LiteralForm.Float.Literal
import LiteralForm.Integer.Literal
import LiteralForm.Options
import LiteralForm.Text.Literal
import LiteralForm.Value.Basic

namespace LiteralForm

/-- The literals of floating-point numbers need the name of their type for the constants. -/
def floatLiteral (n : Namer) (type : Primitive) (suffix : String) (l : FloatLiteral) : String :=
  l.render (n.primitive type) suffix

/-- The literal of a number of 64 bits. -/
def doubleLiteral (n : Namer) (x : BinaryFloat .double) : String :=
  floatLiteral n .float64 "" (.ofDouble x)

/-- The literal of a number of 32 bits. -/
def singleLiteral (n : Namer) (x : BinaryFloat .single) : String :=
  floatLiteral n .float32 "f" (.ofSingle x)

/-- The default value of a type. -/
def defaultExpression (n : Namer) (t : TypeRef) : String := "default(" ++ n.nameOf t ++ ")"

/-- The default of a struct type, as the literal of a struct that equals it. -/
def structDefault? (n : Namer) (type : TypeRef) (fields : List (String × Value)) :
    Option String :=
  if Value.allZero fields then some (defaultExpression n type) else none

/-- The code of a value, if it has one, and what is worth logging about it. -/
structure Rendered where
  code : Option String
  events : List Event
  deriving DecidableEq, Repr

/-- Code with nothing to log. -/
def Rendered.quiet (code : String) : Rendered := ⟨some code, []⟩

/-- A way to name types, and options. -/
structure Renderer where
  namer : Namer
  options : Options

namespace Renderer

/-- The renderer for C#, with namespaces if the options ask for them. -/
def csharp (o : Options) : Renderer := ⟨CSharp.namer o.fullTypeNames, o⟩

/-- The name of a type as code. -/
def typeName (r : Renderer) (t : TypeRef) : String := r.namer.nameOf t

/-- The code of `null` where a value of the declared type is expected. -/
def nullLiteral (r : Renderer) (declared : Option TypeRef) : String :=
  match declared with
  | some t => if t.isObject then "null" else defaultExpression r.namer t
  | none => "null"

/-- The code of a string. -/
def renderString (r : Renderer) (s : String) : Rendered :=
  let threshold := r.options.verbatimThreshold.toNat
  ⟨some (Text.stringLiteral threshold s),
    if Text.prefersVerbatim threshold s.toList then [.verbatimString s.utf8ByteSize threshold]
    else []⟩

/-- The code of a value that is expected to have the declared type. -/
def render (r : Renderer) (declared : Option TypeRef) (v : Value) : Rendered :=
  match v with
  | .null => .quiet (r.nullLiteral declared)
  | .string s => r.renderString s
  | .char c =>
    match Text.charLiteral? c with
    | some code => .quiet code
    | none => ⟨none, [.wideChar c.toNat]⟩
  | .decimal d => .quiet d.literal
  | .float32 x => .quiet (singleLiteral r.namer x)
  | .float64 x => .quiet (doubleLiteral r.namer x)
  | .integral i => .quiet (i.literal r.namer)
  | .bool b => .quiet (if b then "true" else "false")
  | .enum e => ⟨some (e.literal r.namer), e.form.events⟩
  | .type t => .quiet ("typeof(" ++ r.typeName t ++ ")")
  | .method t m => .quiet (r.typeName t ++ "." ++ r.namer.member m)
  | .struct t fields =>
    -- A struct has no literal with fields, so only the default of its type can be written.
    match structDefault? r.namer t fields with
    | some code => .quiet code
    | none => ⟨none, [.nonDefaultStruct]⟩
  | .unsupported t => ⟨none, [.unsupported t]⟩

end Renderer

end LiteralForm
