/-
Reserved words of C#.

Words that are reserved only in some contexts, such as `var` or `record`, are identifiers
everywhere else and are not listed.
-/
import LiteralForm.Naming

namespace LiteralForm.CSharp

/-- The reserved words of C#. -/
def keywords : List String :=
  ["abstract", "as", "base", "bool", "break", "byte", "case", "catch", "char", "checked",
    "class", "const", "continue", "decimal", "default", "delegate", "do", "double", "else",
    "enum", "event", "explicit", "extern", "false", "finally", "fixed", "float", "for",
    "foreach", "goto", "if", "implicit", "in", "int", "interface", "internal", "is", "lock",
    "long", "namespace", "new", "null", "object", "operator", "out", "override", "params",
    "private", "protected", "public", "readonly", "ref", "return", "sbyte", "sealed", "short",
    "sizeof", "stackalloc", "static", "string", "struct", "switch", "this", "throw", "true",
    "try", "typeof", "uint", "ulong", "unchecked", "unsafe", "ushort", "using", "virtual",
    "void", "volatile", "while"]

/-- A reserved word becomes an identifier by an at sign in front. -/
def naming : NamingConvention where
  reserved := keywords
  escape name := "@" ++ name

end LiteralForm.CSharp
