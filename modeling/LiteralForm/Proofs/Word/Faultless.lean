/-
Words are wide enough.

Reading and writing decimal numbers, reading escapes, and finding the pattern and the representative
of an enum value are all done on words of a fixed width.  `faultless` puts together what the modules
on each of them show: whatever the input, no operation overflows, no shift is too wide and no list
is split behind its end, and what the words hold in the end is the result of the same computation on
numbers without bounds.

The margins differ.  A mantissa with one more digit stays below the greatest word with a sign by a
factor of more than two hundred million; the eight digits of the longest escape fill their word
exactly.
-/
import LiteralForm.Proofs.Word.Decimal
import LiteralForm.Proofs.Word.Enum
import LiteralForm.Proofs.Word.Escape

namespace LiteralForm.Word

/-- No text makes the reader of decimal numbers overflow, and no decimal number makes the writer
split its digits out of range.  No escape of a body, of any of the forms, makes its number overflow.
No value of an enum type, whether over an integral type or not, makes the words of its pattern or
of its representative overflow or be shifted by as many places as they have. -/
theorem faultless :
    (∀ s : String, Decimal.parseWord s = .ok (Decimal.parse s)) ∧
    (∀ d : Decimal, d.textWord = .ok d.text) ∧
    (∀ (offset : Nat) (kind : Char) (rest : List Char),
      Text.readEscapeWord offset kind rest = .ok (Text.readEscape offset kind rest)) ∧
    (∀ body : List Char, Text.unescapeWord body = .ok (Text.unescape body)) ∧
    ∀ (e : EnumType) (raw : Int128),
      (∃ b, e.bitsWord raw.word = .ok b ∧ b.toNat = e.bits raw.val) ∧
      ∃ v, e.normalizeWord raw.word = .ok v ∧ v.toInt = e.normalize raw.val := by
  refine ⟨Decimal.parseWord_eq, Decimal.textWord_eq, Text.readEscapeWord_eq, ?_, ?_⟩
  · intro body
    exact Text.unescapeWordFrom_eq 0 body
  · intro e raw
    exact ⟨e.exists_bitsWord raw, e.exists_normalizeWord raw⟩

end LiteralForm.Word
