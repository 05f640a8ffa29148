/-
Decimal numbers that can be had at all.

A decimal number comes from its parts, from a text, from a document, from an integer, or is the
default (`Obtained`).

* `exists_obtained_iff`: the numbers that can be had are those of 96 bits with at most 28 digits
  after the point, and all of them;
* `obtained_survive_text`: each of them is read back from its text and from its literal.

Design notes: the bounds are fields of the type, so no source can break them.  What is left to
prove of a source is that it does not change the parts on the way.
-/
import LiteralForm.Json.Decode
import LiteralForm.Proofs.Decimal.Text

namespace LiteralForm.Decimal

/-- The number comes from one of the sources of decimal numbers. -/
inductive Obtained (d : Decimal) : Prop
  | ofParts (mantissa : Int) (scale : Nat) (h : ofParts mantissa scale = .ok d)
  | ofText (s : String) (h : parse s = .ok d)
  | ofDocument (s : String) (h : parseJson? s = some d)
  | ofIntegral (n : Integral) (h : ofIntegral n = d)
  | ofDefault (h : default = d)

theorem exists_obtained_iff (m : Int) (s : Nat) :
    (∃ d, Obtained d ∧ d.mantissa = m ∧ d.scale = s) ↔ m.natAbs ≤ 2 ^ 96 - 1 ∧ s ≤ 28 := by
  constructor
  · rintro ⟨d, -, rfl, rfl⟩
    exact ⟨d.mantissa_le, d.scale_le⟩
  · rintro ⟨hm, hs⟩
    let d : Decimal := ⟨m, s, hm, hs⟩
    exact ⟨d, .ofParts m s (ofParts_eq_ok_iff.mpr ⟨rfl, rfl⟩), rfl, rfl⟩

theorem text_injective {a b : Decimal} (h : a.text = b.text) : a = b := by
  refine literal_injective ?_
  rw [literal, literal, h]

/-- The decimal numbers that can be had are exactly those of 96 bits with at most 28 digits after
the point.  Each is read back from its text with its mantissa and its scale, so that no two have
one text, and its literal is a text of the number in front of a suffix. -/
theorem obtained_survive_text :
    (∀ (m : Int) (s : Nat), (∃ d, Obtained d ∧ d.mantissa = m ∧ d.scale = s)
      ↔ m.natAbs ≤ 2 ^ 96 - 1 ∧ s ≤ 28) ∧
    (∀ d, Obtained d → parse d.text = .ok d) ∧
    (∀ a b, Obtained a → Obtained b → a.text = b.text → a = b) ∧
    ∀ d, Obtained d → ∃ t, d.literal = t ++ "m" ∧ parse t = .ok d := by
  refine ⟨exists_obtained_iff, ?_, ?_, ?_⟩
  · intro d _
    exact parse_text d
  · intro a b _ _ h
    exact text_injective h
  · intro d _
    exact ⟨d.text, rfl, parse_text d⟩

/-- The least number whose digits all stand after the point but one. -/
def leastOfMaxScale : Decimal := ⟨-(2 ^ 96 - 1), 28, by decide, by decide⟩

theorem obtained_survive_text_least :
    Obtained leastOfMaxScale ∧ leastOfMaxScale.text = "-7.9228162514264337593543950335" ∧
      parse "-7.9228162514264337593543950335" = .ok leastOfMaxScale := by
  have hobt : Obtained leastOfMaxScale :=
    .ofParts (-(2 ^ 96 - 1)) 28 (ofParts_eq_ok_iff.mpr ⟨rfl, rfl⟩)
  have htext : leastOfMaxScale.text = "-7.9228162514264337593543950335" := by decide +kernel
  refine ⟨hobt, htext, ?_⟩
  rw [← htext]
  exact obtained_survive_text.2.1 leastOfMaxScale hobt

end LiteralForm.Decimal
