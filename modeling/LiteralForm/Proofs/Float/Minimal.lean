/-
The fewest digits.

Of the decimals that read back, `shortest` gives one with the fewest digits, and these digits are
determined by the number that they denote.

* `power_le_of_readsBack`: no decimal on a coarser grid reads back;
* `digitCount_shortest_le`: nor does one with fewer digits;
* `not_ten_dvd_shortest`: the digits do not end with a zero;
* `Scientific.eq_of_value_eq`: so two shortest decimals, of any formats, that denote the same number
  have the same digits and the same power;
* `value_shortest_lt_iff`: shortest decimals are in the order of their magnitudes.

Design notes: rounding keeps the order of numbers, so where the two neighbours of a number on a grid
fail to read back, every other point of the grid does.  That some grid of the walk holds a decimal
is a matter of sizes: the last grid is finer than half the distance to the next magnitude.
-/
import LiteralForm.Proofs.Float.Shortest
import Mathlib.Algebra.Order.Floor.Semifield
import Mathlib.Data.Rat.Floor

namespace LiteralForm

/-! Powers of natural numbers are the built-in ones, whatever else is imported. -/
attribute [local instance (2000)] instPowNat

namespace Scientific

/-- A coarser grid has the number only if the digits end with a zero. -/
theorem not_power_lt {s t : Scientific} (hs : ¬10 ∣ s.digits) (h : s.value = t.value) :
    ¬s.power < t.power := by
  intro hlt
  obtain ⟨n, hn⟩ : ∃ n : Nat, t.power = s.power + (n + 1 : Nat) :=
    ⟨(t.power - s.power - 1).toNat, by omega⟩
  have hten : (10 : ℚ) ^ s.power ≠ 0 := zpow_ne_zero _ (by norm_num)
  rw [value, value, hn, zpow_add₀ (by norm_num), zpow_natCast, mul_comm ((10 : ℚ) ^ s.power),
    ← mul_assoc] at h
  have hdigits : s.digits = t.digits * 10 ^ (n + 1) := by
    exact_mod_cast mul_right_cancel₀ hten h
  exact hs ⟨t.digits * 10 ^ n, by rw [hdigits, Nat.pow_succ]; ring⟩

/-- Decimals without a trailing zero are determined by their number. -/
theorem eq_of_value_eq {s t : Scientific} (hs : ¬10 ∣ s.digits) (ht : ¬10 ∣ t.digits)
    (h : s.value = t.value) : s = t := by
  have hpower : s.power = t.power :=
    le_antisymm (not_lt.mp (not_power_lt ht h.symm)) (not_lt.mp (not_power_lt hs h))
  have hten : (10 : ℚ) ^ t.power ≠ 0 := zpow_ne_zero _ (by norm_num)
  rw [value, value, hpower] at h
  have hdigits : s.digits = t.digits := by exact_mod_cast mul_right_cancel₀ hten h
  obtain ⟨digits, power⟩ := s
  obtain rfl : digits = t.digits := hdigits
  obtain rfl : power = t.power := hpower
  rfl

end Scientific

namespace FloatFormat

variable {f : FloatFormat} {tie : Tie} {m : Nat} {k : Int}

/-! ### The order of shortest decimals -/

/-- Shortest decimals are in the order of their magnitudes. -/
theorem value_shortest_lt_iff (hf : 0 < f.fractionBits) {a b : Nat} (ha : a ≤ f.infinity)
    (hb : b ≤ f.infinity) : (f.shortest tie a).value < (f.shortest tie b).value ↔ a < b := by
  have hnear := isNearest_shortest hf tie ha
  have hnear' := isNearest_shortest hf tie hb
  constructor
  · intro hlt
    refine Nat.lt_of_le_of_ne (hnear.le_of_le hnear' hlt.le) ?_
    rintro rfl
    exact lt_irrefl _ hlt
  · intro hlt
    by_contra hle
    exact absurd (hnear'.le_of_le hnear (not_lt.mp hle)) (Nat.not_le_of_lt hlt)

theorem value_shortest_le_iff (hf : 0 < f.fractionBits) {a b : Nat} (ha : a ≤ f.infinity)
    (hb : b ≤ f.infinity) : (f.shortest tie a).value ≤ (f.shortest tie b).value ↔ a ≤ b := by
  rw [← not_lt, value_shortest_lt_iff hf hb ha, not_lt]

/-! ### The points of a grid -/

/-- The number of steps of a grid that fit below a magnitude. -/
def stepsBelow (f : FloatFormat) (m : Nat) (k : Int) : Nat := ⌊f.value m / (10 : ℚ) ^ k⌋₊

theorem scaledRatio_div (f : FloatFormat) (m : Nat) (k : Int) :
    (f.scaledRatio m k).1 / (f.scaledRatio m k).2 = f.stepsBelow m k := by
  have hvalue : ((f.scaledRatio m k).1 : ℚ) / (f.scaledRatio m k).2 = f.value m / (10 : ℚ) ^ k := by
    unfold scaledRatio value
    split
    · next h =>
      obtain ⟨n, rfl⟩ := Int.eq_ofNat_of_zero_le h
      simp [div_div]
    · next h =>
      obtain ⟨n, rfl⟩ : ∃ n : Nat, k = -n := ⟨(-k).toNat, by omega⟩
      simp [div_eq_mul_inv, mul_right_comm]
  rw [stepsBelow, ← hvalue, Nat.floor_div_eq_div]

theorem stepsBelow_mul_le (f : FloatFormat) (m : Nat) (k : Int) :
    (f.stepsBelow m k : ℚ) * (10 : ℚ) ^ k ≤ f.value m := by
  have hten : (0 : ℚ) < 10 ^ k := zpow_pos (by norm_num) k
  have hvalue : 0 ≤ f.value m := div_nonneg (Nat.cast_nonneg _) (Nat.cast_nonneg _)
  rw [← le_div_iff₀ hten]
  exact Nat.floor_le (div_nonneg hvalue hten.le)

theorem value_lt_stepsBelow (f : FloatFormat) (m : Nat) (k : Int) :
    f.value m < (f.stepsBelow m k + 1 : Nat) * (10 : ℚ) ^ k := by
  have hten : (0 : ℚ) < 10 ^ k := zpow_pos (by norm_num) k
  rw [← div_lt_iff₀ hten, Nat.cast_add_one]
  exact Nat.lt_floor_add_one _

/-- Decimals between two numbers that round to a magnitude read back as this magnitude. -/
theorem readsBack_of_between (hf : 0 < f.fractionBits) {q r : ℚ} {s : Scientific}
    (hq : f.IsNearest q m) (hr : f.IsNearest r m) (hqs : q ≤ s.value) (hsr : s.value ≤ r) :
    f.readsBack m s = true := by
  have hs := (readsBack_iff (f := f) (s := s) hf).mp (beq_self_eq_true _)
  have hm := le_antisymm (hq.le_of_le hs hqs) (hs.le_of_le hr hsr)
  rw [readsBack_iff hf, hm]
  exact hs

theorem power_of_bestOnGrid? {s : Scientific} (h : f.bestOnGrid? tie m k = some s) :
    s.power = k := by
  unfold bestOnGrid? at h
  simp only at h
  split at h
  · cases h
    rfl
  · cases h
    rfl
  · cases h
    rfl
  · simp at h

/-- A grid on which nothing is found holds no decimal that reads back. -/
theorem readsBack_of_bestOnGrid?_eq_none (hf : 0 < f.fractionBits) (hm : m ≤ f.infinity)
    (h : f.bestOnGrid? tie m k = none) (c : Nat) : f.readsBack m ⟨c, k⟩ = false := by
  have hneighbours : f.readsBack m ⟨f.stepsBelow m k, k⟩ = false ∧
      f.readsBack m ⟨f.stepsBelow m k + 1, k⟩ = false := by
    unfold bestOnGrid? at h
    simp only [scaledRatio_div] at h
    split at h
    · simp at h
    · simp at h
    · simp at h
    · next hbelow habove => exact ⟨hbelow, habove⟩
  have hten : (0 : ℚ) < 10 ^ k := zpow_pos (by norm_num) k
  rw [Bool.eq_false_iff, ne_eq, readsBack_iff hf]
  intro hc
  rcases Nat.lt_or_ge (f.stepsBelow m k) c with hlt | hge
  -- The neighbour on the side of the point is between the point and the number.
  · have hle : (f.stepsBelow m k + 1 : Nat) * (10 : ℚ) ^ k ≤ c * (10 : ℚ) ^ k :=
      mul_le_mul_of_nonneg_right (by exact_mod_cast hlt) hten.le
    have habove := readsBack_of_between hf (isNearest_value hm) hc
      (s := ⟨f.stepsBelow m k + 1, k⟩) (f.value_lt_stepsBelow m k).le hle
    rw [hneighbours.2] at habove
    cases habove
  · have hle : (c : ℚ) * (10 : ℚ) ^ k ≤ f.stepsBelow m k * (10 : ℚ) ^ k :=
      mul_le_mul_of_nonneg_right (by exact_mod_cast hge) hten.le
    have hbelow := readsBack_of_between hf hc (isNearest_value hm)
      (s := ⟨f.stepsBelow m k, k⟩) hle (f.stepsBelow_mul_le m k)
    rw [hneighbours.1] at hbelow
    cases hbelow

/-! ### The walk over the grids -/

theorem pow_digitCount_le {n : Nat} (hn : 0 < n) : 10 ^ (digitCount n - 1) ≤ n := by
  by_contra hlt
  rcases Nat.eq_zero_or_pos (digitCount n - 1) with hone | hpos
  · rw [hone, Nat.pow_zero] at hlt
    omega
  · have hle : digitCount n ≤ digitCount n - 1 :=
      (Nat.length_toDigits_le_iff (by decide) hpos).mpr (Nat.lt_of_not_le hlt)
    omega

theorem lt_pow_digitCount (n : Nat) : n < 10 ^ digitCount n :=
  (Nat.length_toDigits_le_iff (by decide) Nat.length_toDigits_pos).mp le_rfl

theorem digitCount_pos (n : Nat) : 0 < digitCount n := Nat.length_toDigits_pos

/-- The walk begins at a grid that is at most a hundred times too coarse. -/
theorem topPower_lt_value (hm : 0 < m) : (10 : ℚ) ^ (f.topPower m - 2) < f.value m := by
  have hunits := f.units_pos hm
  have hlow : (10 : ℚ) ^ (digitCount (f.units m) - 1) ≤ f.units m := by
    exact_mod_cast pow_digitCount_le hunits
  have hhigh : ((2 ^ f.unitExponent : Nat) : ℚ) < 10 ^ digitCount (2 ^ f.unitExponent) := by
    exact_mod_cast lt_pow_digitCount _
  have hpos := f.unitDenominator_pos
  have hcount := digitCount_pos (f.units m)
  have hpower : f.topPower m - 2
      = (digitCount (f.units m) - 1 : Nat) - (digitCount (2 ^ f.unitExponent) : Int) := by
    unfold topPower
    omega
  rw [hpower, zpow_sub₀ (by norm_num), zpow_natCast, zpow_natCast, value,
    div_lt_div_iff₀ (by positivity) hpos]
  calc (10 : ℚ) ^ (digitCount (f.units m) - 1) * (2 ^ f.unitExponent : Nat)
      ≤ f.units m * (2 ^ f.unitExponent : Nat) := by gcongr
    _ < f.units m * 10 ^ digitCount (2 ^ f.unitExponent) := by
      have hu : (0 : ℚ) < f.units m := by exact_mod_cast hunits
      gcongr

/-- The distance to the next magnitude. -/
theorem value_succ (f : FloatFormat) (m : Nat) :
    f.value (m + 1) = f.value m + (2 : ℚ) ^ f.shift m / (2 ^ f.unitExponent : Nat) := by
  rw [value, value, units_succ, units]
  push_cast
  ring

/-- The last grid of the walk is finer than half the distance to the next magnitude. -/
theorem last_step_lt (hbits : 4 * 2 ^ f.fractionBits ≤ 10 ^ 17) (hm : 0 < m) :
    2 * (10 : ℚ) ^ (f.topPower m - 19)
      < (2 : ℚ) ^ f.shift m / (2 ^ f.unitExponent : Nat) := by
  set distance := (2 : ℚ) ^ f.shift m / (2 ^ f.unitExponent : Nat) with hdistance
  have hpos : 0 < distance := by
    have hunit := f.unitDenominator_pos
    positivity
  have htop := f.topPower_lt_value hm
  have hvalue : f.value m = f.significand m * distance := by
    rw [value, units, hdistance]
    push_cast
    ring
  have hsignificand : 2 * (f.significand m : ℚ) < 10 ^ 17 := by
    have hlt := f.significand_lt m
    exact_mod_cast (show 2 * f.significand m < 10 ^ 17 by omega)
  have hpower : (10 : ℚ) ^ (f.topPower m - 2) = 10 ^ (f.topPower m - 19) * 10 ^ 17 := by
    rw [show f.topPower m - 2 = (f.topPower m - 19) + (17 : Nat) by omega,
      zpow_add₀ (by norm_num), zpow_natCast]
  rw [hpower, hvalue] at htop
  have hstep : 2 * (f.significand m * distance) < 10 ^ 17 * distance := by
    rw [← mul_assoc]
    exact mul_lt_mul_of_pos_right hsignificand hpos
  linarith

/-- The last grid of the walk holds a decimal that reads back. -/
theorem bestOnGrid?_last (hf : 0 < f.fractionBits) (hbits : 4 * 2 ^ f.fractionBits ≤ 10 ^ 17)
    (hm : 0 < m) (hinf : m < f.infinity) : f.bestOnGrid? tie m (f.topPower m - 19) ≠ none := by
  intro hnone
  have hfails := readsBack_of_bestOnGrid?_eq_none hf hinf.le hnone
    (f.stepsBelow m (f.topPower m - 19) + 1)
  have hnear : f.IsNearest
      (Scientific.mk (f.stepsBelow m (f.topPower m - 19) + 1) (f.topPower m - 19)).value m := by
    have hle := f.stepsBelow_mul_le m (f.topPower m - 19)
    have hlt := f.value_lt_stepsBelow m (f.topPower m - 19)
    have hstep := f.last_step_lt hbits hm
    refine isNearest_of_lt_middle hinf hlt.le ?_
    rw [Scientific.value, value_succ, Nat.cast_add_one, add_one_mul]
    linarith
  rw [← readsBack_iff hf, hfails] at hnear
  cases hnear

/-- The step of the first grid exceeds the number. -/
theorem value_lt_topPower (f : FloatFormat) (m : Nat) : f.value m < (10 : ℚ) ^ f.topPower m := by
  have hhigh : (f.units m : ℚ) < 10 ^ digitCount (f.units m) := by
    exact_mod_cast lt_pow_digitCount _
  have hlow : (10 : ℚ) ^ (digitCount (2 ^ f.unitExponent) - 1) ≤ (2 ^ f.unitExponent : Nat) := by
    exact_mod_cast pow_digitCount_le (Nat.two_pow_pos _)
  have hpos := f.unitDenominator_pos
  have hcount := digitCount_pos (2 ^ f.unitExponent)
  have hpower : f.topPower m = (digitCount (f.units m) : Int)
      - (digitCount (2 ^ f.unitExponent) - 1 : Nat) := by
    unfold topPower
    omega
  rw [hpower, zpow_sub₀ (by norm_num), zpow_natCast, zpow_natCast, value,
    div_lt_div_iff₀ hpos (by positivity)]
  calc (f.units m : ℚ) * 10 ^ (digitCount (2 ^ f.unitExponent) - 1)
      ≤ f.units m * (2 ^ f.unitExponent : Nat) := by gcongr
    _ < 10 ^ digitCount (f.units m) * (2 ^ f.unitExponent : Nat) := by gcongr

/-- A positive number does not read back from zero. -/
theorem readsBack_zero (hf : 0 < f.fractionBits) (hm : 0 < m) (k : Int) :
    f.readsBack m ⟨0, k⟩ = false := by
  rw [Bool.eq_false_iff, ne_eq, readsBack_iff hf]
  intro hnear
  have hzero : (Scientific.mk 0 k).value = f.value 0 := by
    simp [Scientific.value, value, units, significand]
  rw [hzero] at hnear
  have hsame := hnear.unique (isNearest_value (Nat.zero_le _))
  omega

/-- The next magnitude denotes at most twice the number. -/
theorem value_succ_le (hm : 0 < m) : f.value (m + 1) ≤ 2 * f.value m := by
  have hunits := f.units_pos hm
  have hle : f.units (m + 1) ≤ 2 * f.units m := by
    rw [units] at hunits
    rw [units_succ, units, ← Nat.mul_assoc]
    have hsignificand := Nat.pos_of_mul_pos_right hunits
    exact Nat.mul_le_mul_right _ (by omega)
  have hpos := f.unitDenominator_pos
  rw [value, value, ← mul_div_assoc, div_le_div_iff_of_pos_right hpos]
  exact_mod_cast hle

/-- Grids above the first one hold no decimal that reads back. -/
theorem readsBack_of_topPower_lt (hf : 0 < f.fractionBits) (hm : 0 < m) (hinf : m < f.infinity)
    {s : Scientific} (hs : f.topPower m < s.power) : f.readsBack m s = false := by
  obtain ⟨digits, power⟩ := s
  rcases Nat.eq_zero_or_pos digits with rfl | hdigits
  · exact readsBack_zero hf hm power
  rw [Bool.eq_false_iff, ne_eq, readsBack_iff hf]
  intro hnear
  have hmiddle := hnear.le_middle (Nat.lt_succ_self m) hinf
  have hsucc := f.value_succ_le hm
  have htop := f.value_lt_topPower m
  have hpower : (10 : ℚ) ^ (f.topPower m + 1) ≤ 10 ^ power :=
    zpow_le_zpow_right₀ (by norm_num) hs
  have hvalue : (10 : ℚ) ^ power ≤ (Scientific.mk digits power).value :=
    le_mul_of_one_le_left (zpow_nonneg (by norm_num) _) (by exact_mod_cast hdigits)
  rw [zpow_add_one₀ (by norm_num)] at hpower
  have hten : (0 : ℚ) < 10 ^ f.topPower m := zpow_pos (by norm_num) _
  linarith

/-- A search over a range stops at the first index that has an answer. -/
theorem exists_of_findSome?_range {α : Type} {g : Nat → Option α} {a : α} {n : Nat}
    (h : (List.range n).findSome? g = some a) : ∃ i, g i = some a ∧ ∀ j < i, g j = none := by
  induction n with
  | zero => simp at h
  | succ n ih =>
    rw [List.range_succ, List.findSome?_append, Option.or_eq_some_iff] at h
    rcases h with h | ⟨hnone, h⟩
    · exact ih h
    · rw [List.findSome?_singleton] at h
      exact ⟨n, h, fun j hj => List.findSome?_eq_none_iff.mp hnone j (List.mem_range.mpr hj)⟩

/-! ### The fewest digits -/

section

variable (hf : 0 < f.fractionBits) (hbits : 4 * 2 ^ f.fractionBits ≤ 10 ^ 17)
  (hm : 0 < m) (hinf : m < f.infinity)
include hf hbits hm hinf

/-- The decimal is found on a grid, and nothing is found on the grids before. -/
theorem exists_grid_shortest (tie : Tie) :
    ∃ i : Nat, f.bestOnGrid? tie m (f.topPower m - i) = some (f.shortest tie m) ∧
      ∀ j < i, f.bestOnGrid? tie m (f.topPower m - (j : Nat)) = none := by
  unfold shortest
  cases hfind : (List.range gridCount).findSome?
      (fun (i : Nat) => f.bestOnGrid? tie m (f.topPower m - i)) with
  | none =>
    have hlast := List.findSome?_eq_none_iff.mp hfind 19 (by decide)
    exact absurd hlast (bestOnGrid?_last hf hbits hm hinf)
  | some s =>
    rw [Option.getD_some]
    exact exists_of_findSome?_range hfind

/-- No decimal on a coarser grid reads back. -/
theorem power_le_of_readsBack (tie : Tie) {s : Scientific} (hs : f.readsBack m s = true) :
    s.power ≤ (f.shortest tie m).power := by
  obtain ⟨i, hi, hbefore⟩ := exists_grid_shortest hf hbits hm hinf tie
  rw [power_of_bestOnGrid? hi]
  by_contra hlt
  rcases lt_or_ge (f.topPower m) s.power with htop | htop
  · rw [readsBack_of_topPower_lt hf hm hinf htop] at hs
    cases hs
  · obtain ⟨j, hj⟩ : ∃ j : Nat, s.power = f.topPower m - j :=
      ⟨(f.topPower m - s.power).toNat, by omega⟩
    have hnone := hbefore j (by omega)
    have hfails := readsBack_of_bestOnGrid?_eq_none hf hinf.le hnone s.digits
    rw [← hj, hs] at hfails
    cases hfails

/-- The digits that are written do not end with a zero: it could be moved to the power. -/
theorem not_ten_dvd_shortest : ¬10 ∣ (f.shortest tie m).digits := by
  rintro ⟨c, hc⟩
  have hreads : f.readsBack m ⟨c, (f.shortest tie m).power + 1⟩ = true := by
    have hvalue : (Scientific.mk c ((f.shortest tie m).power + 1)).value
        = (f.shortest tie m).value := by
      rw [Scientific.value, Scientific.value, hc, zpow_add_one₀ (by norm_num)]
      push_cast
      ring
    rw [readsBack_iff hf, hvalue]
    exact isNearest_shortest hf tie hinf.le
  have hle := power_le_of_readsBack hf hbits hm hinf tie hreads
  exact absurd hle (Int.not_le.mpr (Int.lt_succ _))

/-- No decimal with fewer digits reads back. -/
theorem digitCount_shortest_le (tie : Tie) {s : Scientific} (hs : f.readsBack m s = true) :
    digitCount (f.shortest tie m).digits ≤ digitCount s.digits := by
  have hleast : ∀ u, f.readsBack m u = true → u.power ≤ (f.shortest tie m).power := fun u hu =>
    power_le_of_readsBack hf hbits hm hinf tie hu
  have hzero : ¬10 ∣ (f.shortest tie m).digits := not_ten_dvd_shortest hf hbits hm hinf
  have hnear := isNearest_shortest hf tie hinf.le
  generalize f.shortest tie m = t at hleast hzero hnear ⊢
  by_contra hlt
  have hpos : 0 < t.digits := by omega
  obtain ⟨n, hn⟩ : ∃ n, digitCount t.digits = n + 1 := ⟨_, (Nat.sub_add_cancel (by omega)).symm⟩
  have hdigits : 10 ^ n ≤ t.digits := by
    have hle := pow_digitCount_le hpos
    rwa [hn] at hle
  have hfewer : s.digits ≤ 10 ^ n :=
    (lt_pow_digitCount s.digits).le.trans (Nat.pow_le_pow_right (by decide) (by omega))
  -- A power of ten is between both decimals, and it is on a coarser grid.
  have hone : (Scientific.mk 1 (t.power + n)).value = (10 ^ n : Nat) * (10 : ℚ) ^ t.power := by
    rw [Scientific.value, zpow_add₀ (by norm_num), zpow_natCast]
    push_cast
    ring
  have hbelow : s.value ≤ (10 ^ n : Nat) * (10 : ℚ) ^ t.power :=
    mul_le_mul (by exact_mod_cast hfewer) (zpow_le_zpow_right₀ (by norm_num) (hleast s hs))
      (zpow_nonneg (by norm_num) _) (Nat.cast_nonneg _)
  have habove : (10 ^ n : Nat) * (10 : ℚ) ^ t.power ≤ t.value :=
    mul_le_mul_of_nonneg_right (by exact_mod_cast hdigits) (zpow_nonneg (by norm_num) _)
  rw [← hone] at hbelow habove
  have hreads := readsBack_of_between hf ((readsBack_iff hf).mp hs) hnear hbelow habove
  have hpower : t.power + n ≤ t.power := hleast _ hreads
  have hcount := digitCount_pos s.digits
  omega

end

end FloatFormat

end LiteralForm
