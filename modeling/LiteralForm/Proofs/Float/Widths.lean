/-
One decimal in both widths.

The notation of a literal is chosen by the number, while a reader sees the shortest decimal.

* `double.isScientific_iff`, `single.isScientific_iff`: the choice in terms of the decimal;
* `widths_agree`: below `2 ^ 24` both widths write a decimal in the same way, except `0.0001`.

Design notes: each threshold is a number of its width, and shortest decimals are in the order of
the numbers, so a comparison with the number is one with its decimal.  The number of 32 bits that
is nearest to `0.0001` is smaller than that of 64 bits, which is the threshold of both.  So in the
narrow width this decimal itself is on the small side.
-/
import LiteralForm.Proofs.Float.Literal
import LiteralForm.Proofs.Float.Minimal

namespace LiteralForm

/-! Powers of natural numbers are the built-in ones, whatever else is imported. -/
attribute [local instance (2000)] instPowNat

namespace BinaryFloat

variable {f : FloatFormat} {x : BinaryFloat f}

/-- The shortest decimal of a finite number, without its sign. -/
def decimal (x : BinaryFloat f) : ℚ :=
  if x.isZero then 0 else (f.shortest .up x.magnitude).value

theorem decimal_of_isZero (hx : x.isZero = true) : x.decimal = 0 := if_pos hx

theorem decimal_of_not_isZero (hx : x.isZero = false) :
    x.decimal = (f.shortest .up x.magnitude).value :=
  if_neg (by rw [hx]; decide)

theorem decimal_of_shortest {s : Scientific} (hx : x.isZero = false)
    (h : f.shortest .up x.magnitude = s) : x.decimal = s.value := by
  rw [decimal_of_not_isZero hx, h]

theorem magnitude_pos (hx : x.isZero = false) : 0 < x.magnitude := by
  rw [isZero, beq_eq_false_iff_ne] at hx
  exact Nat.pos_of_ne_zero hx

/-! Digits are found on a grid in formats of limited precision, which both widths are. -/

variable (hf : 0 < f.fractionBits) (hbits : 4 * 2 ^ f.fractionBits ≤ 10 ^ 17)
include hf hbits

theorem not_ten_dvd_digits (hx : x.isFinite = true) (hx₀ : x.isZero = false) :
    ¬10 ∣ (f.shortest .up x.magnitude).digits :=
  FloatFormat.not_ten_dvd_shortest hf hbits (magnitude_pos hx₀) (of_decide_eq_true hx)

/-- Zeros alone are written as zeros. -/
theorem decimal_eq_zero_iff (hx : x.isFinite = true) : x.decimal = 0 ↔ x.isZero = true := by
  constructor
  · intro hzero
    by_contra hne
    rw [Bool.not_eq_true] at hne
    have hten := not_ten_dvd_digits hf hbits hx hne
    rw [decimal_of_not_isZero hne, Scientific.value,
      mul_eq_zero_iff_right (zpow_ne_zero _ (by norm_num)), Nat.cast_eq_zero] at hzero
    rw [hzero] at hten
    exact hten (Nat.dvd_zero 10)
  · exact decimal_of_isZero

/-- The digits of a number are determined by its decimal. -/
theorem shortest_eq_of_decimal_eq (hx : x.isFinite = true) (hx₀ : x.isZero = false)
    {s : Scientific} (hs : ¬10 ∣ s.digits) (h : x.decimal = s.value) :
    f.shortest .up x.magnitude = s := by
  rw [decimal_of_not_isZero hx₀] at h
  exact Scientific.eq_of_value_eq (not_ten_dvd_digits hf hbits hx hx₀) hs h

end BinaryFloat

namespace FloatLiteral

open BinaryFloat FloatFormat

/-! ### Thresholds -/

/-- The number of 64 bits nearest to `0.0001` lies between that of 32 bits and the next one. -/
theorem tenThousandth_between :
    single.units (single.round 1 10000) * 2 ^ double.unitExponent
        < double.units (double.round 1 10000) * 2 ^ single.unitExponent ∧
      double.units (double.round 1 10000) * 2 ^ single.unitExponent
        ≤ single.units (single.round 1 10000 + 1) * 2 ^ double.unitExponent := by
  decide +kernel

theorem isTiny_single_iff {m : Nat} :
    isTiny .single m = true ↔ m ≠ 0 ∧ m < single.round 1 10000 + 1 := by
  obtain ⟨hbelow, habove⟩ := tenThousandth_between
  have hunits : single.units m * 2 ^ double.unitExponent
      < double.units (double.round 1 10000) * 2 ^ single.unitExponent
        ↔ m < single.round 1 10000 + 1 := by
    constructor
    · intro hlt
      have hmul := hlt.trans_le habove
      exact single.units_strictMono.lt_iff_lt.mp (Nat.lt_of_mul_lt_mul_right hmul)
    · intro hlt
      have hle := single.units_strictMono.monotone (Nat.le_of_lt_succ hlt)
      exact (Nat.mul_le_mul_right _ hle).trans_lt hbelow
  rw [isTiny, Bool.and_eq_true, bne_iff_ne, decide_eq_true_iff, hunits]

theorem isTiny_double_iff {m : Nat} :
    isTiny .double m = true ↔ m ≠ 0 ∧ m < double.round 1 10000 := by
  rw [isTiny, Bool.and_eq_true, bne_iff_ne, decide_eq_true_iff,
    Nat.mul_lt_mul_right (Nat.two_pow_pos _), double.units_strictMono.lt_iff_lt]

theorem value_tenThousandth : (Scientific.mk 1 (-4)).value = 1 / 10000 := by
  norm_num [Scientific.value]

/-- A number of 32 bits is written with an exponent if its decimal is `2 ^ 24` or more, or at
most `0.0001`. -/
theorem single.isScientific_iff {m : Nat} (hm : m ≤ single.infinity) :
    single.isScientific m = true ↔ 2 ^ 24 ≤ (single.shortest .up m).value ∨
      (m ≠ 0 ∧ (single.shortest .up m).value ≤ 1 / 10000) := by
  have hlarge : single.shortest .up (single.ofNat (2 ^ 24)) = ⟨2 ^ 24, 0⟩ := by decide +kernel
  have hsmall : single.shortest .up (single.round 1 10000) = ⟨1, -4⟩ := by decide +kernel
  have hunits : single.units (single.ofNat (2 ^ 24))
      = 2 ^ (single.fractionBits + 1) * 2 ^ single.unitExponent := by decide +kernel
  have hlargeValue : (single.shortest .up (single.ofNat (2 ^ 24))).value = 2 ^ 24 := by
    rw [hlarge]
    norm_num [Scientific.value]
  have hsmallValue : (single.shortest .up (single.round 1 10000)).value = 1 / 10000 := by
    rw [hsmall, value_tenThousandth]
  rw [isScientific, Bool.or_eq_true, decide_eq_true_iff, isTiny_single_iff, ← hunits,
    single.units_strictMono.le_iff_le, Nat.lt_succ_iff, ← hlargeValue, ← hsmallValue,
    value_shortest_le_iff (by decide) (by decide +kernel) hm,
    value_shortest_le_iff (by decide) hm (by decide +kernel)]

/-- A number of 64 bits is written with an exponent if its decimal exceeds all unsigned integers
of 32 bits, or is below `0.0001`. -/
theorem double.isScientific_iff {m : Nat} (hm : m ≤ double.infinity) :
    double.isScientific m = true ↔ 2 ^ 32 - 1 < (double.shortest .up m).value ∨
      (m ≠ 0 ∧ (double.shortest .up m).value < 1 / 10000) := by
  have hlarge : double.shortest .up (double.ofNat (2 ^ 32 - 1)) = ⟨2 ^ 32 - 1, 0⟩ := by
    decide +kernel
  have hsmall : double.shortest .up (double.round 1 10000) = ⟨1, -4⟩ := by decide +kernel
  have hunits : double.units (double.ofNat (2 ^ 32 - 1))
      = (2 ^ IntKind.uint32.width - 1) * 2 ^ double.unitExponent := by decide +kernel
  have hlargeValue : (double.shortest .up (double.ofNat (2 ^ 32 - 1))).value = 2 ^ 32 - 1 := by
    rw [hlarge]
    norm_num [Scientific.value]
  have hsmallValue : (double.shortest .up (double.round 1 10000)).value = 1 / 10000 := by
    rw [hsmall, value_tenThousandth]
  rw [isScientific, Bool.or_eq_true, decide_eq_true_iff, isTiny_double_iff, ← hunits,
    double.units_strictMono.lt_iff_lt, ← hlargeValue, ← hsmallValue,
    value_shortest_lt_iff (by decide) (by decide +kernel) hm,
    value_shortest_lt_iff (by decide) hm (by decide +kernel)]

/-! ### Literals -/

section

variable {f : FloatFormat} (isScientific : Nat → Bool) {x : BinaryFloat f}

theorem numeralOf_of_isZero (hx : x.isZero = true) :
    numeralOf isScientific x = .zero x.negative :=
  if_pos hx

theorem numeralOf_of_not_isZero (hx : x.isZero = false) : numeralOf isScientific x
      = if isScientific x.magnitude then (f.shortest .up x.magnitude).scientific x.negative true
        else (f.shortest .up x.magnitude).positional x.negative := by
  rw [numeralOf, hx]
  rfl

end

variable {v : BinaryFloat .single} {w : BinaryFloat .double}

/-- Between the large thresholds and around `0.0001` both widths choose the same notation. -/
theorem isScientific_agree (hv : v.isFinite = true) (hw : w.isFinite = true)
    (hv₀ : v.isZero = false) (hw₀ : w.isZero = false) (hd : v.decimal = w.decimal)
    (hsmall : w.decimal < 2 ^ 24) (hne : w.decimal ≠ 1 / 10000) :
    single.isScientific v.magnitude = double.isScientific w.magnitude := by
  have hv' : v.magnitude ≤ single.infinity := (of_decide_eq_true hv).le
  have hw' : w.magnitude ≤ double.infinity := (of_decide_eq_true hw).le
  rw [Bool.eq_iff_iff, single.isScientific_iff hv', double.isScientific_iff hw',
    ← decimal_of_not_isZero hv₀, ← decimal_of_not_isZero hw₀, hd]
  have hlarge : ¬(2 ^ 24 : ℚ) ≤ w.decimal := not_le.mpr hsmall
  have hlarge' : ¬(2 ^ 32 - 1 : ℚ) < w.decimal := by
    rw [not_lt]
    linarith
  rw [or_iff_right hlarge, or_iff_right hlarge', and_iff_right (magnitude_pos hv₀).ne',
    and_iff_right (magnitude_pos hw₀).ne', lt_iff_le_and_ne, and_iff_left hne]

theorem numeralOf_agree (hv : v.isFinite = true) (hw : w.isFinite = true)
    (hsign : v.negative = w.negative) (hd : v.decimal = w.decimal)
    (hsmall : w.decimal < 2 ^ 24) (hne : w.decimal ≠ 1 / 10000) :
    numeralOf single.isScientific v = numeralOf double.isScientific w := by
  have hzero : v.isZero = w.isZero := by
    rw [Bool.eq_iff_iff, ← decimal_eq_zero_iff (by decide) (by decide) hv,
      ← decimal_eq_zero_iff (by decide) (by decide) hw, hd]
  cases hw₀ : w.isZero with
  | true =>
    rw [hw₀] at hzero
    rw [numeralOf_of_isZero _ hzero, numeralOf_of_isZero _ hw₀, hsign]
  | false =>
    rw [hw₀] at hzero
    have hdigits := shortest_eq_of_decimal_eq (by decide) (by decide) hv hzero
      (not_ten_dvd_digits (by decide) (by decide) hw hw₀) (hd.trans (decimal_of_not_isZero hw₀))
    rw [numeralOf_of_not_isZero _ hzero, numeralOf_of_not_isZero _ hw₀, hsign,
      isScientific_agree hv hw hzero hw₀ hd hsmall hne, hdigits]

theorem decimal_single_tenThousandth :
    (⟨0x38d1b717⟩ : BinaryFloat .single).decimal = 1 / 10000 := by
  rw [← value_tenThousandth]
  exact decimal_of_shortest (by decide +kernel) (by decide +kernel)

theorem decimal_double_tenThousandth :
    (⟨0x3f1a36e2eb1c432d⟩ : BinaryFloat .double).decimal = 1 / 10000 := by
  rw [← value_tenThousandth]
  exact decimal_of_shortest (by decide +kernel) (by decide +kernel)

theorem isZero_of_decimal_tenThousandth {f : FloatFormat} {x : BinaryFloat f}
    (h : x.decimal = 1 / 10000) : x.isZero = false := by
  rw [Bool.eq_false_iff]
  intro hzero
  rw [decimal_of_isZero hzero] at h
  norm_num at h

/-- The narrow width writes `0.0001` with an exponent. -/
theorem numeralOf_single_tenThousandth (hv : v.isFinite = true) (h : v.decimal = 1 / 10000) :
    numeralOf single.isScientific v = (Scientific.mk 1 (-4)).scientific v.negative true := by
  have hv₀ := isZero_of_decimal_tenThousandth h
  have hdigits := shortest_eq_of_decimal_eq (s := ⟨1, -4⟩) (by decide) (by decide) hv hv₀
    (by decide) (h.trans value_tenThousandth.symm)
  have hscientific : single.isScientific v.magnitude = true := by
    rw [single.isScientific_iff (of_decide_eq_true hv).le, hdigits, value_tenThousandth]
    exact .inr ⟨(magnitude_pos hv₀).ne', le_rfl⟩
  rw [numeralOf_of_not_isZero _ hv₀, hscientific, hdigits]
  rfl

/-- The wide width writes `0.0001` without an exponent. -/
theorem numeralOf_double_tenThousandth (hw : w.isFinite = true) (h : w.decimal = 1 / 10000) :
    numeralOf double.isScientific w = (Scientific.mk 1 (-4)).positional w.negative := by
  have hw₀ := isZero_of_decimal_tenThousandth h
  have hdigits := shortest_eq_of_decimal_eq (s := ⟨1, -4⟩) (by decide) (by decide) hw hw₀
    (by decide) (h.trans value_tenThousandth.symm)
  have hpositional : ¬double.isScientific w.magnitude = true := by
    rw [double.isScientific_iff (of_decide_eq_true hw).le, hdigits, value_tenThousandth]
    norm_num
  rw [numeralOf_of_not_isZero _ hw₀, if_neg hpositional, hdigits]

/-- Below `2 ^ 24` a decimal is written in the same way in both widths, up to the suffix of the
narrow one.  The one exception is `0.0001`, which the narrow width alone writes with an
exponent. -/
theorem widths_agree (n : Namer) (hv : v.isFinite = true) (hw : w.isFinite = true)
    (hsign : v.negative = w.negative) (hd : v.decimal = w.decimal)
    (hsmall : w.decimal < 2 ^ 24) :
    (w.decimal ≠ 1 / 10000 → ∃ numeral, ofSingle v = .finite numeral ∧
      ofDouble w = .finite numeral ∧ singleLiteral n v = doubleLiteral n w ++ "f") ∧
    (w.decimal = 1 / 10000 →
      ofSingle v = .finite ((Scientific.mk 1 (-4)).scientific w.negative true) ∧
      ofDouble w = .finite ((Scientific.mk 1 (-4)).positional w.negative)) := by
  have hsingle : ofSingle v = .finite (numeralOf single.isScientific v) :=
    ofPattern_of_isFinite _ hv
  have hdouble : ofDouble w = .finite (numeralOf double.isScientific w) :=
    ofPattern_of_isFinite _ hw
  constructor
  · intro hne
    rw [numeralOf_agree hv hw hsign hd hsmall hne] at hsingle
    refine ⟨_, hsingle, hdouble, ?_⟩
    rw [singleLiteral, doubleLiteral, hsingle, hdouble, floatLiteral, floatLiteral, render, render,
      String.append_empty]
  · intro heq
    rw [numeralOf_single_tenThousandth hv (hd.trans heq), hsign] at hsingle
    rw [numeralOf_double_tenThousandth hw heq] at hdouble
    exact ⟨hsingle, hdouble⟩

/-- The decimals `0.1` and `0.0001` in both widths. -/
theorem widths_agree_tenth_tenThousandth :
    (⟨0x3dcccccd⟩ : BinaryFloat .single).decimal = 1 / 10 ∧
    (⟨0x3fb999999999999a⟩ : BinaryFloat .double).decimal = 1 / 10 ∧
    (∃ numeral, ofSingle ⟨0x3dcccccd⟩ = .finite numeral ∧
      ofDouble ⟨0x3fb999999999999a⟩ = .finite numeral ∧
      singleLiteral (CSharp.namer true) ⟨0x3dcccccd⟩
        = doubleLiteral (CSharp.namer true) ⟨0x3fb999999999999a⟩ ++ "f") ∧
    (⟨0x38d1b717⟩ : BinaryFloat .single).decimal = 1 / 10000 ∧
    (⟨0x3f1a36e2eb1c432d⟩ : BinaryFloat .double).decimal = 1 / 10000 ∧
    ofSingle ⟨0x38d1b717⟩ = .finite ((Scientific.mk 1 (-4)).scientific false true) ∧
    ofDouble ⟨0x3f1a36e2eb1c432d⟩ = .finite ((Scientific.mk 1 (-4)).positional false) := by
  have htenth : (Scientific.mk 1 (-1)).value = 1 / 10 := by norm_num [Scientific.value]
  have hv : (⟨0x3dcccccd⟩ : BinaryFloat .single).decimal = 1 / 10 := by
    rw [← htenth]
    exact decimal_of_shortest (by decide +kernel) (by decide +kernel)
  have hw : (⟨0x3fb999999999999a⟩ : BinaryFloat .double).decimal = 1 / 10 := by
    rw [← htenth]
    exact decimal_of_shortest (by decide +kernel) (by decide +kernel)
  have hsame := widths_agree (CSharp.namer true) (v := ⟨0x3dcccccd⟩) (w := ⟨0x3fb999999999999a⟩)
    (by decide +kernel) (by decide +kernel) (by decide +kernel) (hv.trans hw.symm)
    (by rw [hw]; norm_num)
  have hexcept := widths_agree (CSharp.namer true) (v := ⟨0x38d1b717⟩)
    (w := ⟨0x3f1a36e2eb1c432d⟩) (by decide +kernel) (by decide +kernel) (by decide +kernel)
    (decimal_single_tenThousandth.trans decimal_double_tenThousandth.symm)
    (by rw [decimal_double_tenThousandth]; norm_num)
  exact ⟨hv, hw, hsame.1 (by rw [hw]; norm_num), decimal_single_tenThousandth,
    decimal_double_tenThousandth, hexcept.2 decimal_double_tenThousandth⟩

/-- The decimal `0.0001` is below `2 ^ 24` and is not written in the same way. -/
theorem widths_differ_tenThousandth :
    ¬∀ (v : BinaryFloat .single) (w : BinaryFloat .double), v.isFinite = true →
      w.isFinite = true → v.negative = w.negative → v.decimal = w.decimal →
      w.decimal < 2 ^ 24 →
      ∃ numeral, ofSingle v = .finite numeral ∧ ofDouble w = .finite numeral := by
  intro h
  obtain ⟨numeral, hsingle, hdouble⟩ := h ⟨0x38d1b717⟩ ⟨0x3f1a36e2eb1c432d⟩ (by decide +kernel)
    (by decide +kernel) (by decide +kernel)
    (decimal_single_tenThousandth.trans decimal_double_tenThousandth.symm)
    (by rw [decimal_double_tenThousandth]; norm_num)
  have hne : ofSingle ⟨0x38d1b717⟩ ≠ ofDouble ⟨0x3f1a36e2eb1c432d⟩ := by decide +kernel
  exact hne (hsingle.trans hdouble.symm)

end FloatLiteral

end LiteralForm
