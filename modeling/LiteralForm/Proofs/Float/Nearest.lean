/-
Rounding to nearest, ties to even.

`FloatFormat.IsNearest` is the rule of rounding as a property of a magnitude: no other magnitude
denotes a number nearer to the rational, and of two that are equally near it is the even one.

* `units_strictMono`: a larger magnitude denotes a larger number;
* `IsNearest.unique`: the rule leaves no choice;
* `isNearest_value`: the number of a magnitude rounds to that magnitude;
* `isNearest_round`: `round` follows the rule.

Design notes: an infinity takes part in the comparison as the number that the next magnitude
would denote, a power of two.  So the rule includes overflow: a rational rounds to an infinity
from half-way between this power and the greatest finite number on.
-/
import LiteralForm.Float.Rounding
import Mathlib.Algebra.Order.Field.Basic
import Mathlib.Algebra.Order.Field.Rat
import Mathlib.Order.Monotone.Basic
import Mathlib.Tactic.FieldSimp
import Mathlib.Tactic.Linarith
import Mathlib.Tactic.Ring

namespace LiteralForm

/-! Powers of natural numbers are the built-in ones, whatever else is imported. -/
attribute [local instance (2000)] instPowNat

namespace FloatFormat

variable {f : FloatFormat}

/-! ### Magnitudes in order -/

theorem shift_significand (f : FloatFormat) (m : Nat) :
    f.shift m * 2 ^ f.fractionBits + f.significand m = m := by
  have hdiv := Nat.div_add_mod' m (2 ^ f.fractionBits)
  unfold shift significand
  split
  · next h => simp [Nat.div_eq_of_lt h]
  · next h =>
    have hone : 1 ≤ m / 2 ^ f.fractionBits :=
      (Nat.one_le_div_iff (Nat.two_pow_pos _)).mpr (Nat.le_of_not_lt h)
    obtain ⟨j, hj⟩ : ∃ j, m / 2 ^ f.fractionBits = j + 1 := ⟨_, (Nat.sub_add_cancel hone).symm⟩
    rw [hj, Nat.add_mul] at hdiv
    rw [hj, Nat.add_sub_cancel]
    omega

theorem significand_lt (f : FloatFormat) (m : Nat) :
    f.significand m < 2 * 2 ^ f.fractionBits := by
  have hmod := Nat.mod_lt m (Nat.two_pow_pos f.fractionBits)
  unfold significand
  split <;> omega

theorem shift_eq_zero_or (f : FloatFormat) (m : Nat) :
    f.shift m = 0 ∨ 2 ^ f.fractionBits ≤ f.significand m := by
  unfold shift significand
  split
  · next h => exact .inl (by rw [Nat.div_eq_of_lt h])
  · exact .inr (Nat.le_add_right _ _)

/-- A significand at a shift, the first one of the next shift included. -/
theorem units_add {k r : Nat} (hr : r ≤ 2 * 2 ^ f.fractionBits)
    (hk : k = 0 ∨ 2 ^ f.fractionBits ≤ r) :
    f.units (k * 2 ^ f.fractionBits + r) = r * 2 ^ k := by
  have hpos := Nat.two_pow_pos f.fractionBits
  by_cases hlow : r < 2 ^ f.fractionBits
  · obtain rfl : k = 0 := by omega
    simp [units, significand, shift, hlow, Nat.div_eq_of_lt hlow]
  by_cases htop : r = 2 * 2 ^ f.fractionBits
  · have hm : k * 2 ^ f.fractionBits + r = (k + 2) * 2 ^ f.fractionBits := by
      rw [htop, Nat.add_mul]
    have hnot : ¬(k + 2) * 2 ^ f.fractionBits < 2 ^ f.fractionBits := by
      rw [Nat.add_mul]
      omega
    rw [hm, units, significand, if_neg hnot, Nat.mul_mod_left, shift,
      Nat.mul_div_cancel _ hpos, htop, Nat.add_zero]
    rw [show k + 2 - 1 = k + 1 by omega, Nat.pow_succ, Nat.mul_comm 2, Nat.mul_assoc,
      Nat.mul_comm 2]
  · obtain ⟨d, rfl⟩ : ∃ d, r = 2 ^ f.fractionBits + d := ⟨_, (Nat.add_sub_of_le (by omega)).symm⟩
    have hd : d < 2 ^ f.fractionBits := by omega
    have hm : k * 2 ^ f.fractionBits + (2 ^ f.fractionBits + d)
        = 2 ^ f.fractionBits * (k + 1) + d := by ring
    have hnot : ¬2 ^ f.fractionBits * (k + 1) + d < 2 ^ f.fractionBits := by
      rw [Nat.mul_add]
      omega
    rw [hm, units, significand, if_neg hnot, Nat.mul_add_mod, Nat.mod_eq_of_lt hd, shift,
      Nat.mul_add_div hpos, Nat.div_eq_of_lt hd]
    rfl

/-- The next magnitude denotes the number that is one step at the same shift greater. -/
theorem units_succ (f : FloatFormat) (m : Nat) :
    f.units (m + 1) = (f.significand m + 1) * 2 ^ f.shift m := by
  have hlt := f.significand_lt m
  rw [← units_add (f := f) (k := f.shift m) (r := f.significand m + 1) (by omega)
    ((f.shift_eq_zero_or m).imp_right fun h => by omega)]
  rw [← Nat.add_assoc, shift_significand]

theorem units_strictMono (f : FloatFormat) : StrictMono f.units := by
  refine strictMono_nat_of_lt_succ fun m => ?_
  rw [units_succ, units]
  exact Nat.mul_lt_mul_of_pos_right (Nat.lt_succ_self _) (Nat.two_pow_pos _)

theorem units_pos {m : Nat} (hm : 0 < m) : 0 < f.units m :=
  Nat.lt_of_le_of_lt (Nat.zero_le _) (f.units_strictMono hm)

/-! ### The rule of rounding -/

/-- The number that a magnitude denotes. -/
def value (f : FloatFormat) (m : Nat) : ℚ := f.units m / (2 ^ f.unitExponent : Nat)

theorem unitDenominator_pos (f : FloatFormat) : (0 : ℚ) < (2 ^ f.unitExponent : Nat) := by
  exact_mod_cast Nat.two_pow_pos _

/-- The magnitude `m` is the rational `q`, rounded to nearest, ties to even. -/
structure IsNearest (f : FloatFormat) (q : ℚ) (m : Nat) : Prop where
  le_infinity : m ≤ f.infinity
  nearest : ∀ m' ≤ f.infinity, |f.value m - q| ≤ |f.value m' - q|
  even : ∀ m' ≤ f.infinity, m' ≠ m → |f.value m' - q| = |f.value m - q| → m % 2 = 0

theorem value_strictMono (f : FloatFormat) : StrictMono f.value := by
  intro a b h
  have hlt : (f.units a : ℚ) < f.units b := by exact_mod_cast f.units_strictMono h
  exact div_lt_div_of_pos_right hlt f.unitDenominator_pos

/-- The number of a magnitude rounds to that magnitude. -/
theorem isNearest_value {m : Nat} (h : m ≤ f.infinity) : f.IsNearest (f.value m) m where
  le_infinity := h
  nearest m' _ := by simp
  even m' _ hne heq := by
    rw [sub_self, abs_zero, abs_eq_zero, sub_eq_zero] at heq
    exact absurd (f.value_strictMono.injective heq) hne

/-- Of two magnitudes that are both nearest, the first is not below the other. -/
theorem IsNearest.not_lt {q : ℚ} {m m' : Nat} (h : f.IsNearest q m) (h' : f.IsNearest q m') :
    ¬m < m' := by
  intro hlt
  have heq := le_antisymm (h.nearest m' h'.le_infinity) (h'.nearest m h.le_infinity)
  have heven := h.even m' h'.le_infinity (by omega) heq.symm
  have heven' := h'.even m h.le_infinity (by omega) heq
  have hlow := f.value_strictMono (Nat.lt_succ_self m)
  have hhigh := f.value_strictMono (show m + 1 < m' by omega)
  rcases abs_eq_abs.mp heq with hsame | hmid
  · linarith
  -- Both are even, so there is a magnitude between them, which is nearer to the point half-way.
  · have hbetween := h.nearest (m + 1) (by have := h'.le_infinity; omega)
    have hnearer : |f.value (m + 1) - q| < |f.value m - q| := by
      rw [abs_of_neg (show f.value m - q < 0 by linarith), abs_lt]
      constructor <;> linarith
    exact absurd hbetween (not_le.mpr hnearer)

/-- Rounding leaves no choice. -/
theorem IsNearest.unique {q : ℚ} {m m' : Nat} (h : f.IsNearest q m) (h' : f.IsNearest q m') :
    m = m' :=
  le_antisymm (Nat.le_of_not_lt (h'.not_lt h)) (Nat.le_of_not_lt (h.not_lt h'))

/-- What rounds to the greater of two magnitudes is not below the middle between them. -/
theorem IsNearest.middle_le {q : ℚ} {m m' : Nat} (h : f.IsNearest q m) (hlt : m' < m) :
    f.value m' + f.value m ≤ 2 * q := by
  have hvalue := f.value_strictMono hlt
  by_contra hbelow
  have hnearer : |f.value m' - q| < |f.value m - q| := by
    rw [abs_of_pos (show 0 < f.value m - q by linarith), abs_lt]
    constructor <;> linarith
  exact absurd (h.nearest m' (by have := h.le_infinity; omega)) (not_le.mpr hnearer)

/-- What rounds to the smaller of two magnitudes is not above the middle between them. -/
theorem IsNearest.le_middle {q : ℚ} {m m' : Nat} (h : f.IsNearest q m) (hlt : m < m')
    (hinf : m' ≤ f.infinity) : 2 * q ≤ f.value m + f.value m' := by
  have hvalue := f.value_strictMono hlt
  by_contra habove
  have hnearer : |f.value m' - q| < |f.value m - q| := by
    rw [abs_of_neg (show f.value m - q < 0 by linarith), abs_lt]
    constructor <;> linarith
  exact absurd (h.nearest m' hinf) (not_le.mpr hnearer)

/-- Rounding keeps the order of numbers. -/
theorem IsNearest.le_of_le {q r : ℚ} {m m' : Nat} (h : f.IsNearest q m) (h' : f.IsNearest r m')
    (hqr : q ≤ r) : m ≤ m' := by
  by_contra hlt
  have hq := h.middle_le (Nat.lt_of_not_le hlt)
  have hr := h'.le_middle (Nat.lt_of_not_le hlt) h.le_infinity
  -- Both numbers are the middle, and one number has one rounding.
  obtain rfl : q = r := by linarith
  exact hlt (h.unique h').le

/-- What lies between a magnitude and the middle to the next one rounds to the magnitude. -/
theorem isNearest_of_lt_middle {q : ℚ} {m : Nat} (hinf : m < f.infinity) (hle : f.value m ≤ q)
    (hlt : 2 * q < f.value m + f.value (m + 1)) : f.IsNearest q m := by
  have hfar : ∀ m', m' ≠ m → |f.value m - q| < |f.value m' - q| := by
    intro m' hne
    rw [abs_of_nonpos (show f.value m - q ≤ 0 by linarith)]
    rcases Nat.lt_or_gt_of_ne hne with hm' | hm'
    · have hvalue := f.value_strictMono hm'
      rw [abs_of_neg (by linarith)]
      linarith
    · have hvalue := f.value_strictMono.monotone (Nat.succ_le_of_lt hm')
      rw [abs_of_pos (by linarith)]
      linarith
  refine ⟨hinf.le, fun m' _ => ?_, fun m' _ hne heq => absurd heq (hfar m' hne).ne'⟩
  by_cases hne : m' = m
  · rw [hne]
  · exact (hfar m' hne).le

/-! ### Rounding a quotient -/

/-- The distance of a magnitude from a quotient, in units and multiplied by the denominator. -/
def distance (f : FloatFormat) (num den m : Nat) : Nat :=
  ((f.units m * den : Nat) - (num * 2 ^ f.unitExponent : Nat) : Int).natAbs

theorem abs_value_sub {num den : Nat} (hden : 0 < den) (m : Nat) :
    |f.value m - (num : ℚ) / den|
      = f.distance num den m / ((2 ^ f.unitExponent : Nat) * den : ℚ) := by
  have hp := f.unitDenominator_pos
  have hd : (0 : ℚ) < den := by exact_mod_cast hden
  have hsub : f.value m - (num : ℚ) / den
      = ((f.units m * den : Nat) - (num * 2 ^ f.unitExponent : Nat) : Int)
        / ((2 ^ f.unitExponent : Nat) * den : ℚ) := by
    rw [value, div_sub_div _ _ hp.ne' hd.ne']
    congr 1
    push_cast
    ring
  rw [hsub, abs_div, abs_of_pos (mul_pos hp hd), distance, Nat.cast_natAbs, Int.cast_abs]

/-- The rule of rounding in natural numbers. -/
theorem isNearest_div_iff {num den m : Nat} (hden : 0 < den) :
    f.IsNearest ((num : ℚ) / den) m ↔ m ≤ f.infinity ∧ ∀ m' ≤ f.infinity,
      f.distance num den m ≤ f.distance num den m' ∧
        (m' ≠ m → f.distance num den m' = f.distance num den m → m % 2 = 0) := by
  have hpos : (0 : ℚ) < (2 ^ f.unitExponent : Nat) * den :=
    mul_pos f.unitDenominator_pos (by exact_mod_cast hden)
  have hle : ∀ a b, |f.value a - (num : ℚ) / den| ≤ |f.value b - (num : ℚ) / den|
      ↔ f.distance num den a ≤ f.distance num den b := by
    intro a b
    rw [abs_value_sub hden, abs_value_sub hden, div_le_div_iff_of_pos_right hpos]
    exact Nat.cast_le
  have heq : ∀ a b, |f.value a - (num : ℚ) / den| = |f.value b - (num : ℚ) / den|
      ↔ f.distance num den a = f.distance num den b := by
    intro a b
    rw [le_antisymm_iff, hle, hle, ← le_antisymm_iff]
  constructor
  · rintro ⟨hinf, hnear, heven⟩
    exact ⟨hinf, fun m' hm' => ⟨(hle _ _).mp (hnear m' hm'), fun hne h =>
      heven m' hm' hne ((heq _ _).mpr h)⟩⟩
  · rintro ⟨hinf, h⟩
    exact ⟨hinf, fun m' hm' => (hle _ _).mpr (h m' hm').1, fun m' hm' hne hd =>
      (h m' hm').2 hne ((heq _ _).mp hd)⟩

/-- Between two neighbours the nearer one is nearest of all, and half-way the even one. -/
theorem isNearest_of_between {num den m : Nat} (lo : Nat) (hden : 0 < den)
    (hlo : f.units lo * den ≤ num * 2 ^ f.unitExponent)
    (hhi : num * 2 ^ f.unitExponent < f.units (lo + 1) * den)
    (hinf : lo + 1 ≤ f.infinity)
    (hm : (m = lo ∧ 2 * (num * 2 ^ f.unitExponent) < f.units lo * den + f.units (lo + 1) * den) ∨
      (m = lo + 1 ∧
        f.units lo * den + f.units (lo + 1) * den < 2 * (num * 2 ^ f.unitExponent)) ∨
      ((m = lo ∨ m = lo + 1) ∧ m % 2 = 0 ∧
        2 * (num * 2 ^ f.unitExponent) = f.units lo * den + f.units (lo + 1) * den)) :
    f.IsNearest ((num : ℚ) / den) m := by
  have hmul : ∀ {a b}, a < b → f.units a * den < f.units b * den := fun hlt =>
    Nat.mul_lt_mul_of_pos_right (f.units_strictMono hlt) hden
  rw [isNearest_div_iff hden]
  refine ⟨by omega, fun m' _ => ?_⟩
  have hcases : m' < lo ∨ m' = lo ∨ m' = lo + 1 ∨ lo + 1 < m' := by omega
  unfold distance
  rcases hcases with h | rfl | rfl | h
  · have hfar := hmul h
    rcases hm with ⟨rfl, _⟩ | ⟨rfl, _⟩ | ⟨rfl | rfl, _, _⟩ <;> omega
  · rcases hm with ⟨rfl, _⟩ | ⟨rfl, _⟩ | ⟨rfl | rfl, _, _⟩ <;> omega
  · rcases hm with ⟨rfl, _⟩ | ⟨rfl, _⟩ | ⟨rfl | rfl, _, _⟩ <;> omega
  · have hfar := hmul h
    rcases hm with ⟨rfl, _⟩ | ⟨rfl, _⟩ | ⟨rfl | rfl, _, _⟩ <;> omega

/-- Past the greatest finite number an infinity is nearest. -/
theorem isNearest_infinity {num den : Nat} (hden : 0 < den)
    (h : f.units f.infinity * den ≤ num * 2 ^ f.unitExponent) :
    f.IsNearest ((num : ℚ) / den) f.infinity := by
  rw [isNearest_div_iff hden]
  refine ⟨le_rfl, fun m' hm' => ?_⟩
  have hmul : m' < f.infinity → f.units m' * den < f.units f.infinity * den := fun hlt =>
    Nat.mul_lt_mul_of_pos_right (f.units_strictMono hlt) hden
  unfold distance
  rcases Nat.lt_or_eq_of_le hm' with hlt | rfl
  · have := hmul hlt
    omega
  · omega

/-- A quotient without its lost bits has the precision of the format. -/
theorem lostBits_spec (f : FloatFormat) (q : Nat) :
    q / 2 ^ f.lostBits q < 2 * 2 ^ f.fractionBits ∧
      (f.lostBits q = 0 ∨ 2 ^ f.fractionBits ≤ q / 2 ^ f.lostBits q) := by
  unfold lostBits
  have hupper := Nat.lt_log2_self (n := q)
  by_cases hlow : Nat.log2 q ≤ f.fractionBits
  · have hle : 2 ^ (Nat.log2 q + 1) ≤ 2 * 2 ^ f.fractionBits := by
      rw [Nat.mul_comm, ← Nat.pow_succ]
      exact Nat.pow_le_pow_right (by decide) (by omega)
    rw [Nat.sub_eq_zero_of_le hlow]
    simp only [Nat.pow_zero, Nat.div_one, true_or, and_true]
    omega
  · obtain ⟨k, hk⟩ : ∃ k, Nat.log2 q = f.fractionBits + k :=
      ⟨_, (Nat.add_sub_of_le (by omega)).symm⟩
    have hq : q ≠ 0 := by
      rintro rfl
      simp at hlow
    have hlower := Nat.log2_self_le hq
    rw [hk, Nat.pow_add] at hlower
    rw [hk, Nat.add_right_comm, Nat.pow_add, Nat.pow_succ] at hupper
    rw [hk, Nat.add_sub_cancel_left]
    refine ⟨?_, .inr ?_⟩
    · rw [Nat.div_lt_iff_lt_mul (Nat.two_pow_pos k), Nat.mul_comm 2]
      exact hupper
    · rw [Nat.le_div_iff_mul_le (Nat.two_pow_pos k)]
      exact hlower

theorem roundHalfEven_cases (a b : Nat) :
    (2 * (a % b) < b ∧ roundHalfEven a b = a / b) ∨
      (b < 2 * (a % b) ∧ roundHalfEven a b = a / b + 1) ∨
      (2 * (a % b) = b ∧ roundHalfEven a b = a / b + a / b % 2) := by
  unfold roundHalfEven
  split
  · omega
  · split <;> omega

/-- The two magnitudes around a quotient, where `k` bits are lost and neighbours are a step of
`den * 2 ^ k` apart. -/
theorem units_neighbours (f : FloatFormat) {scaled den k : Nat}
    (hk : k = f.lostBits (scaled / den)) :
    f.units (k * 2 ^ f.fractionBits + scaled / (den * 2 ^ k)) * den
        = den * 2 ^ k * (scaled / (den * 2 ^ k)) ∧
      f.units (k * 2 ^ f.fractionBits + scaled / (den * 2 ^ k) + 1) * den
        = den * 2 ^ k * (scaled / (den * 2 ^ k)) + den * 2 ^ k := by
  obtain ⟨hlt, hnormal⟩ := f.lostBits_spec (scaled / den)
  rw [← hk, Nat.div_div_eq_div_mul] at hlt hnormal
  constructor
  · rw [units_add (by omega) hnormal]
    ring
  · rw [Nat.add_assoc, units_add (by omega) (hnormal.imp_right (by omega))]
    ring

/-- `round` follows the rule of rounding. -/
theorem isNearest_round (hf : 0 < f.fractionBits) {num den : Nat} (hden : 0 < den) :
    f.IsNearest ((num : ℚ) / den) (f.round num den) := by
  unfold round
  set scaled := num * 2 ^ f.unitExponent with hscaled
  set k := f.lostBits (scaled / den) with hk
  -- `lo` is the magnitude just below the quotient, `step` the distance to the next one.
  set step := den * 2 ^ k with hstep
  obtain ⟨hunits, hunits'⟩ := f.units_neighbours hk
  rw [← hstep] at hunits hunits'
  have hpos : 0 < step := Nat.mul_pos hden (Nat.two_pow_pos k)
  have hdiv := Nat.div_add_mod scaled step
  have hmod := Nat.mod_lt scaled hpos
  set lo := k * 2 ^ f.fractionBits + scaled / step with hlo
  have hparity : lo % 2 = scaled / step % 2 := by
    obtain ⟨j, hj⟩ : ∃ j, f.fractionBits = j + 1 := ⟨_, (Nat.sub_add_cancel hf).symm⟩
    rw [hlo, hj, Nat.pow_succ, ← Nat.mul_assoc]
    omega
  rcases Nat.lt_or_ge lo f.infinity with hinf | hinf
  · have hcap : min f.infinity (k * 2 ^ f.fractionBits + roundHalfEven scaled step)
        = k * 2 ^ f.fractionBits + roundHalfEven scaled step := by
      rcases roundHalfEven_cases scaled step with ⟨_, hr⟩ | ⟨_, hr⟩ | ⟨_, hr⟩ <;> omega
    rw [hcap]
    refine isNearest_of_between lo hden (by omega) (by omega) hinf ?_
    rcases roundHalfEven_cases scaled step with ⟨h, hr⟩ | ⟨h, hr⟩ | ⟨h, hr⟩
    · exact .inl (by omega)
    · exact .inr (.inl (by omega))
    · exact .inr (.inr (by omega))
  · have hmin : min f.infinity (k * 2 ^ f.fractionBits + roundHalfEven scaled step)
        = f.infinity := by
      rcases roundHalfEven_cases scaled step with ⟨_, hr⟩ | ⟨_, hr⟩ | ⟨_, hr⟩ <;> omega
    rw [hmin]
    refine isNearest_infinity hden ?_
    have hle := Nat.mul_le_mul_right den (f.units_strictMono.monotone hinf)
    omega

end FloatFormat

end LiteralForm
