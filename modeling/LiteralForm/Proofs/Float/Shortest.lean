/-
Shortest decimals read back.

* `Scientific.value` is the number of a decimal;
* `readsBack_iff`: a decimal reads back as a magnitude exactly if it rounds to it;
* `isNearest_shortest`: the decimal that is written for a magnitude rounds to that magnitude.

Design notes: a decimal found on a grid was tested, so only the exact value, the answer where no
grid holds one, needs an argument.
-/
import LiteralForm.Float.Shortest
import LiteralForm.Proofs.Float.Nearest
import Mathlib.Algebra.Order.Field.Power

namespace LiteralForm

/-! Powers of natural numbers are the built-in ones, whatever else is imported. -/
attribute [local instance (2000)] instPowNat

namespace Scientific

/-- The number that a decimal denotes. -/
def value (s : Scientific) : ℚ := s.digits * (10 : ℚ) ^ s.power

theorem ratio_pos (s : Scientific) : 0 < s.ratio.2 := by
  unfold ratio
  split
  · exact Nat.one_pos
  · exact Nat.pow_pos (by decide)

theorem ratio_div (s : Scientific) : (s.ratio.1 : ℚ) / s.ratio.2 = s.value := by
  unfold ratio value
  split
  · next h =>
    obtain ⟨n, hn⟩ := Int.eq_ofNat_of_zero_le h
    rw [hn]
    simp
  · next h =>
    obtain ⟨n, hn⟩ : ∃ n : Nat, s.power = -n := ⟨(-s.power).toNat, by omega⟩
    rw [hn]
    simp [div_eq_mul_inv]

end Scientific

namespace FloatFormat

variable {f : FloatFormat}

/-- A decimal reads back as a magnitude exactly if it rounds to it. -/
theorem readsBack_iff (hf : 0 < f.fractionBits) {m : Nat} {s : Scientific} :
    f.readsBack m s = true ↔ f.IsNearest s.value m := by
  have hround : f.IsNearest ((s.ratio.1 : ℚ) / s.ratio.2) (f.round s.ratio.1 s.ratio.2) :=
    isNearest_round hf s.ratio_pos
  rw [s.ratio_div] at hround
  rw [readsBack, beq_iff_eq]
  constructor
  · rintro rfl
    exact hround
  · exact fun h => hround.unique h

theorem exact_value (f : FloatFormat) (m : Nat) : (f.exact m).value = f.value m := by
  have h5 : (5 : ℚ) ^ f.unitExponent ≠ 0 := pow_ne_zero _ (by norm_num)
  unfold exact Scientific.value value
  rw [zpow_neg, zpow_natCast, show (10 : ℚ) = 2 * 5 by norm_num, mul_pow]
  push_cast
  field_simp

/-- The nearer neighbour is one of the two. -/
theorem nearerNeighbour_eq (tie : Tie) (a b : Nat) :
    nearerNeighbour tie a b = a / b ∨ nearerNeighbour tie a b = a / b + 1 := by
  unfold nearerNeighbour
  split
  · exact .inl rfl
  split
  · exact .inr rfl
  cases tie with
  | up => exact .inr rfl
  | even =>
    simp only
    omega

/-- What is found on a grid reads back. -/
theorem readsBack_of_bestOnGrid? {tie : Tie} {m : Nat} {k : Int} {s : Scientific}
    (h : f.bestOnGrid? tie m k = some s) : f.readsBack m s = true := by
  unfold bestOnGrid? at h
  simp only at h
  split at h
  · next hbelow habove =>
    cases h
    rcases nearerNeighbour_eq tie (f.scaledRatio m k).1 (f.scaledRatio m k).2 with hn | hn
    · rw [hn]
      exact hbelow
    · rw [hn]
      exact habove
  · next hbelow _ =>
    cases h
    exact hbelow
  · next _ habove =>
    cases h
    exact habove
  · simp at h

/-- The decimal that is written for a magnitude rounds to that magnitude. -/
theorem isNearest_shortest (hf : 0 < f.fractionBits) (tie : Tie) {m : Nat}
    (hm : m ≤ f.infinity) : f.IsNearest (f.shortest tie m).value m := by
  unfold shortest
  cases hfind : (List.range gridCount).findSome?
      (fun (i : Nat) => f.bestOnGrid? tie m (f.topPower m - i)) with
  | none =>
    rw [Option.getD_none, exact_value]
    exact isNearest_value hm
  | some s =>
    obtain ⟨i, -, hi⟩ := List.exists_of_findSome?_eq_some hfind
    exact (readsBack_iff hf).mp (readsBack_of_bestOnGrid? hi)

end FloatFormat

end LiteralForm
