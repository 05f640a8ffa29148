/-
Stretches of a text, measured in bytes of UTF-8.

A reader that works on the rest of a text marks a place by what is left there; `Span.between`
turns two such marks into a stretch of the whole text.
-/

namespace LiteralForm.Text

/-- The number of bytes of a text in UTF-8. -/
def byteLength (s : List Char) : Nat := s.foldr (fun c n => c.utf8Size + n) 0

/-- A stretch of a text. -/
structure Span where
  offset : Nat
  length : Nat
  deriving DecidableEq, Repr

/-- The stretch of a text of `total` bytes from where `start` is left to where `rest` is left. -/
def Span.between (total : Nat) (start rest : List Char) : Span :=
  ⟨total - byteLength start, byteLength start - byteLength rest⟩

end LiteralForm.Text
