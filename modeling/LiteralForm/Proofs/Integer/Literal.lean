/-
Integer literals name their value.

* `toList_toString`: an integer is written as a minus sign, if it is negative, and the digits of
  its magnitude;
* `toString_injective`, `literal_injective`: the digits give the integer back, so two values of
  one kind with the same literal are equal.
-/
import LiteralForm.Integer.Literal
import LiteralForm.Proofs.Numeral

namespace LiteralForm.Integral

theorem toList_toString (n : Int) :
    (toString n).toList = Numeral.signText (n < 0) ++ Nat.toDigits 10 n.natAbs := by
  rw [Int.toString_eq_repr, Int.repr_eq_if]
  by_cases h : 0 ≤ n
  · rw [if_pos h, Nat.toList_repr, show n.toNat = n.natAbs by omega,
      show decide (n < 0) = false by simpa using h]
    rfl
  · rw [if_neg h, String.toList_append, Nat.toList_repr, show (-n).toNat = n.natAbs by omega,
      show decide (n < 0) = true by simpa using h]
    rfl

theorem startsNumber_toString (n : Int) (rest : List Char) :
    Numeral.startsNumber ((toString n).toList ++ rest) = true := by
  rw [toList_toString, List.append_assoc]
  exact Numeral.startsNumber_signText _ (isDigits_toDigits _) rest

theorem lastIsDigit_toString (n : Int) : LastIsDigit (toString n).toList := by
  rw [toList_toString]
  exact (isDigits_toDigits _).lastIsDigit _

theorem point_notMem_toString (n : Int) : '.' ∉ (toString n).toList := by
  rw [toList_toString, List.mem_append]
  rintro (h | h)
  · have hsign : '.' ∉ Numeral.signText (decide (n < 0)) := by
      cases decide (n < 0) <;> decide
    exact hsign h
  · exact (isDigits_toDigits _).notMem rfl h

theorem toString_injective {m n : Int} (h : toString m = toString n) : m = n := by
  have hread : ∀ k : Int, Numeral.splitMinus (toString k).toList
      = (decide (k < 0), Nat.toDigits 10 k.natAbs) := by
    intro k
    have := Numeral.splitMinus_signText (decide (k < 0)) (isDigits_toDigits k.natAbs) []
    rwa [List.append_nil, ← toList_toString] at this
  have hsplit := hread m
  rw [h, hread n, Prod.mk.injEq, decide_eq_decide] at hsplit
  have habs := congrArg (fun ds => Nat.ofDigitChars 10 ds 0) hsplit.2
  simp only [Nat.ofDigitChars_ten_toDigits] at habs
  omega

/-- Two values of one kind with the same literal are equal, if built-in types have the same
names. -/
theorem literal_injective {m n : Namer} (hn : m.primitive = n.primitive) {i j : Integral}
    (hk : i.kind = j.kind) (h : i.literal m = j.literal n) : i = j := by
  obtain ⟨k, a, ha⟩ := i
  obtain ⟨l, b, hb⟩ := j
  obtain rfl : k = l := hk
  have hdigits : toString a = toString b := by
    cases k <;> simpa [literal, integralLiteral, hn] using h
  obtain rfl := toString_injective hdigits
  rfl

end LiteralForm.Integral
