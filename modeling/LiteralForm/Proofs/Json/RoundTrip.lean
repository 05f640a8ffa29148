/-
Values survive their JSON text.

* `Value.ofJson?_toJson`: a value without floating-point numbers is read from its document, where
  brackets may be opened as deep as the document needs;
* `Value.parseJson?_text`: it is read back from its text, unless its brackets nest too deep.

Design notes: the document of a value is the one in which no content comes before its kind, so
that nothing is kept.
-/
import LiteralForm.Proofs.Json.MemberOrder

namespace LiteralForm

open Json (WellFormed)

namespace Value

theorem wellFormed_toJson {v : Value} (h : v.isFloatFree = true) : WellFormed v.toJson := by
  rw [← toJsonIn_never v]
  exact v.wellFormed_toJsonIn _ h

/-- A value without floating-point numbers is read back from its document. -/
theorem ofJson?_toJson (v : Value) (hfloat : v.isFloatFree = true) {room : Nat}
    (h : v.toJson.depth ≤ room) : ofJson? false room v.toJson = some v := by
  have hkept := mt (v.keepsEnum_false_iff _).mp v.not_keepsEnum_never
  rw [← toJsonIn_never v, v.ofJson?_toJsonIn false _ hfloat h, if_neg hkept]

/-- A value without floating-point numbers is read back from its text, if its brackets nest no
deeper than the reader allows. -/
theorem parseJson?_text (v : Value) (hfloat : v.isFloatFree = true)
    (hdepth : v.toJson.depth ≤ Json.maxDepth) : parseJson? v.toJson.text = some v := by
  rw [parseJson?, Json.parse_text (wellFormed_toJson hfloat), Option.bind_some,
    ofJson?_toJson v hfloat hdepth]

/-- A struct of several kinds of fields, one of them an enum value whose constants are the least
and the greatest number of 128 bits. -/
def mixedRecord : Value :=
  .struct (.named (some "App.Core") "Record" [.array (.nullable (.primitive .char)) 2])
    [("Label", .string "\\ \x22\n\x01 é😀"),
      ("Price", .decimal ⟨-100, 2, by decide, by decide⟩),
      ("Mode", .enum ⟨⟨.qualified "App" "Mode", .integral .byte, true,
        ⟨[("High", ⟨2 ^ 127 - 1, by decide, by decide⟩),
          ("Low", ⟨-2 ^ 127, by decide, by decide⟩)], by decide⟩⟩, ⟨-1, by decide, by decide⟩⟩),
      ("Inner", .struct (.ofName "Inner")
        [("Mark", .char '\x00'), ("Level", .integral ⟨.sbyte, -128, by decide⟩)])]

theorem parseJson?_text_mixedRecord :
    mixedRecord.isFloatFree = true ∧ mixedRecord.toJson.depth ≤ Json.maxDepth ∧
      parseJson? mixedRecord.toJson.text = some mixedRecord := by
  have hfloat : mixedRecord.isFloatFree = true := by decide
  have hdepth : mixedRecord.toJson.depth ≤ Json.maxDepth := by decide
  exact ⟨hfloat, hdepth, parseJson?_text mixedRecord hfloat hdepth⟩

end Value

end LiteralForm
