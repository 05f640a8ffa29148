/-
Identifier rules of a target language.

A name that comes from metadata may collide with a reserved word of the language that the
code is written in.  A `NamingConvention` lists these words and says how one is escaped;
`safeName` escapes the reserved names and keeps all others as they are.
-/

namespace LiteralForm

/-- The reserved words of a language and the way to write one as an identifier. -/
structure NamingConvention where
  reserved : List String
  escape : String → String

namespace NamingConvention

/-- Whether the name is a reserved word. -/
def isReserved (c : NamingConvention) (name : String) : Bool := c.reserved.contains name

/-- The name as an identifier of the language. -/
def safeName (c : NamingConvention) (name : String) : String :=
  if c.isReserved name then c.escape name else name

end NamingConvention

end LiteralForm
