/-
Options that affect rendering.
-/

namespace LiteralForm

/-- Settings of a renderer. -/
structure Options where
  /-- Whether type names stand with their namespaces. -/
  fullTypeNames : Bool
  /-- The number of escapes that a quoted string may need; a string that needs more is written
  verbatim. -/
  verbatimThreshold : UInt64
  deriving DecidableEq, Repr

/-- Short type names, and at most three escapes in a quoted string. -/
def Options.default : Options := ⟨false, 3⟩

instance : Inhabited Options := ⟨.default⟩

end LiteralForm
