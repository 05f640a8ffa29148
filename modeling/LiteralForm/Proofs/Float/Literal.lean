/-
Floating-point literals are exact.

A finite number is written as a real numeral that rounds back to it: `IsRounding` says that a
pattern is the rounding of a numeral, with the numeral's sign, and `literals_exact` that the
rounding of a literal is the pattern it was written for, in both widths.

* `ext_negative_magnitude`: a pattern is its sign and its magnitude;
* `IsRounding.unique`: a numeral has one rounding;
* `isRounding_numeralOf`: whatever notation is chosen, the numeral rounds to its pattern.
-/
import LiteralForm.Proofs.Numeral
import LiteralForm.Rendering

namespace LiteralForm

/-! Powers of natural numbers are the built-in ones, whatever else is imported. -/
attribute [local instance (2000)] instPowNat

namespace BinaryFloat

variable {f : FloatFormat}

/-! ### Patterns -/

/-- A pattern is its sign bit and its magnitude. -/
theorem toNat_bits (x : BinaryFloat f) :
    x.bits.toNat = (if x.negative then 2 ^ (f.width - 1) else 0) + x.magnitude := by
  have hlt := x.bits.isLt
  have hwidth : 2 ^ f.width = 2 * 2 ^ (f.width - 1) := by
    rw [Nat.mul_comm, ← Nat.pow_succ]
    rfl
  rw [negative, magnitude, BitVec.msb_eq_decide]
  by_cases h : 2 ^ (f.width - 1) ≤ x.bits.toNat
  · rw [if_pos (by simpa using h), Nat.mod_eq_sub_mod h, Nat.mod_eq_of_lt (by omega)]
    omega
  · rw [if_neg (by simpa using h), Nat.mod_eq_of_lt (by omega), Nat.zero_add]

theorem ext_negative_magnitude {x y : BinaryFloat f} (hn : x.negative = y.negative)
    (hm : x.magnitude = y.magnitude) : x = y := by
  have hbits : x.bits.toNat = y.bits.toNat := by rw [toNat_bits, toNat_bits, hn, hm]
  cases x
  cases y
  congr
  exact BitVec.eq_of_toNat_eq hbits

/-! ### The rounding of a numeral -/

/-- The pattern is the numeral, rounded to nearest, ties to even, with the numeral's sign. -/
structure IsRounding (x : BinaryFloat f) (n : Numeral) : Prop where
  negative : x.negative = n.negative
  nearest : f.IsNearest n.magnitude x.magnitude

/-- A numeral has one rounding. -/
theorem IsRounding.unique {x y : BinaryFloat f} {n : Numeral} (hx : x.IsRounding n)
    (hy : y.IsRounding n) : x = y :=
  ext_negative_magnitude (hx.negative.trans hy.negative.symm) (hx.nearest.unique hy.nearest)

/-- The text is a real numeral with the sign of the pattern, and its rounding is the pattern. -/
def WrittenExactly (x : BinaryFloat f) (text : List Char) : Prop :=
  ∃ n, Numeral.readReal text = some n ∧ (text.head? = some '-' ↔ x.negative = true) ∧
    ∀ y : BinaryFloat f, y.IsRounding n ↔ y = x

end BinaryFloat

/-! ### Literals -/

namespace FloatLiteral

open BinaryFloat

variable {f : FloatFormat} (isScientific : Nat → Bool) {x : BinaryFloat f}

theorem isReal_numeralOf : (numeralOf isScientific x).IsReal := by
  unfold numeralOf
  split
  · exact Numeral.zero_isReal _
  · simp only
    split
    · exact Scientific.scientific_isReal _ _
    · exact Scientific.positional_isReal _ _

theorem negative_numeralOf : (numeralOf isScientific x).negative = x.negative := by
  unfold numeralOf
  split
  · rfl
  · simp only [Scientific.scientific, Scientific.positional]
    split
    · rfl
    · split <;> rfl

/-- In either notation the numeral rounds to its pattern. -/
theorem isRounding_numeralOf (hf : 0 < f.fractionBits) (hx : x.magnitude ≤ f.infinity) :
    x.IsRounding (numeralOf isScientific x) := by
  refine ⟨(negative_numeralOf isScientific).symm, ?_⟩
  unfold numeralOf
  split
  · next hz =>
    have hzero : x.magnitude = 0 := by simpa [isZero] using hz
    have hvalue : f.value 0 = 0 := by simp [FloatFormat.value, FloatFormat.units,
      FloatFormat.significand]
    rw [Numeral.zero_magnitude, hzero, ← hvalue]
    exact FloatFormat.isNearest_value (Nat.zero_le _)
  · have hnear := FloatFormat.isNearest_shortest hf .up hx
    simp only
    split
    · rw [Scientific.scientific_magnitude]
      exact hnear
    · rw [Scientific.positional_magnitude]
      exact hnear

theorem writtenExactly_numeralOf (hf : 0 < f.fractionBits) (hx : x.magnitude ≤ f.infinity) :
    x.WrittenExactly ((numeralOf isScientific x).text false) := by
  have hround := isRounding_numeralOf isScientific hf hx
  refine ⟨_, Numeral.readReal_text (isReal_numeralOf isScientific), ?_, fun y => ?_⟩
  · rw [(isReal_numeralOf isScientific).head?_text, negative_numeralOf]
  · constructor
    · exact fun hy => hy.unique hround
    · rintro rfl
      exact hround

theorem ofPattern_of_isFinite (hx : x.isFinite = true) :
    ofPattern isScientific x = .finite (numeralOf isScientific x) := by
  simp only [isFinite, decide_eq_true_eq] at hx
  have hnan : x.isNaN = false := by simpa [isNaN] using hx.le
  have hinf : x.isInfinite = false := by simpa [isInfinite] using hx.ne
  simp [ofPattern, hnan, hinf]

/-- The literal of a finite number is its numeral with the suffix of its width. -/
theorem toList_render_ofPattern (hx : x.isFinite = true) (typeName suffix : String) :
    ((ofPattern isScientific x).render typeName suffix).toList
      = (numeralOf isScientific x).text false ++ suffix.toList := by
  rw [ofPattern_of_isFinite isScientific hx, render, String.toList_append, String.toList_ofList]

/-! ### Literals identify numbers -/

/-- The literal stands for the pattern. -/
def Denotes (x : BinaryFloat f) : FloatLiteral → Prop
  | nan => x.isNaN = true
  | positiveInfinity => x.negative = false ∧ x.magnitude = f.infinity
  | negativeInfinity => x.negative = true ∧ x.magnitude = f.infinity
  | finite n => n.IsReal ∧ x.IsRounding n

theorem denotes_ofPattern (hf : 0 < f.fractionBits) (x : BinaryFloat f) :
    Denotes x (ofPattern isScientific x) := by
  rcases Nat.lt_trichotomy x.magnitude f.infinity with h | h | h
  · rw [ofPattern_of_isFinite isScientific (decide_eq_true h)]
    exact ⟨isReal_numeralOf isScientific, isRounding_numeralOf isScientific hf h.le⟩
  · cases hn : x.negative with
    | true => simp [ofPattern, isNaN, isInfinite, h, hn, Denotes]
    | false => simp [ofPattern, isNaN, isInfinite, h, hn, Denotes]
  · simp [ofPattern, isNaN, h, Denotes]

/-- Patterns that one literal stands for are equal, or both are no number. -/
theorem Denotes.unique {y : BinaryFloat f} {l : FloatLiteral} (hx : Denotes x l)
    (hy : Denotes y l) : x = y ∨ (x.isNaN = true ∧ y.isNaN = true) := by
  cases l with
  | nan => exact .inr ⟨hx, hy⟩
  | positiveInfinity =>
    exact .inl (ext_negative_magnitude (hx.1.trans hy.1.symm) (hx.2.trans hy.2.symm))
  | negativeInfinity =>
    exact .inl (ext_negative_magnitude (hx.1.trans hy.1.symm) (hx.2.trans hy.2.symm))
  | finite n => exact .inl (hx.2.unique hy.2)

theorem render_cases (typeName suffix : String) (l : FloatLiteral) :
    (∃ n, l = .finite n ∧ l.render typeName suffix = String.ofList (n.text false) ++ suffix) ∨
    (l.className ≠ "Finite" ∧ l.render typeName suffix = typeName ++ "." ++ l.className) := by
  cases l with
  | finite n => exact .inl ⟨n, rfl, rfl⟩
  | nan => exact .inr ⟨by decide, rfl⟩
  | positiveInfinity => exact .inr ⟨by decide, rfl⟩
  | negativeInfinity => exact .inr ⟨by decide, rfl⟩

/-- The code of a pattern: a real numeral and a suffix, or a constant of the type. -/
theorem toList_render_cases (hf : 0 < f.fractionBits) (x : BinaryFloat f)
    (typeName suffix : String) :
    (∃ n : Numeral, n.IsReal ∧ ((ofPattern isScientific x).render typeName suffix).toList
      = n.text false ++ suffix.toList) ∨
    ∃ rest, ((ofPattern isScientific x).render typeName suffix).toList
      = typeName.toList ++ '.' :: rest := by
  have hx := denotes_ofPattern isScientific hf x
  rcases render_cases typeName suffix (ofPattern isScientific x) with ⟨n, hl, hr⟩ | ⟨-, hr⟩
  · rw [hl] at hx
    refine .inl ⟨n, hx.1, ?_⟩
    rw [hr, String.toList_append, String.toList_ofList]
  · refine .inr ⟨(ofPattern isScientific x).className.toList, ?_⟩
    rw [hr, String.toList_append, String.toList_append, List.append_assoc]
    rfl

theorem className_injective {l₁ l₂ : FloatLiteral} (h : l₁.className = l₂.className)
    (hne : l₁.className ≠ "Finite") : l₁ = l₂ := by
  cases l₁ <;> cases l₂ <;> simp_all [className]

/-- Literals are told apart by their code if the name of the type does not begin a number. -/
theorem render_injective {typeName suffix : String}
    (hname : ∀ rest, Numeral.startsNumber (typeName.toList ++ rest) = false)
    {l₁ l₂ : FloatLiteral} (h₁ : ∀ n, l₁ = .finite n → n.IsReal)
    (h₂ : ∀ n, l₂ = .finite n → n.IsReal)
    (h : l₁.render typeName suffix = l₂.render typeName suffix) : l₁ = l₂ := by
  have hnumber : ∀ n : Numeral, n.IsReal → ∀ name : String,
      String.ofList (n.text false) ++ suffix ≠ typeName ++ "." ++ name := by
    intro n hn name heq
    have hstart := congrArg (fun s => Numeral.startsNumber s.toList) heq
    simp only [String.toList_append, String.toList_ofList, List.append_assoc, hname, hn.text_eq,
      Numeral.startsNumber_signText _ hn.whole] at hstart
    exact absurd hstart (by decide)
  rcases render_cases typeName suffix l₁ with ⟨m, hl₁, hr₁⟩ | ⟨hne, hr₁⟩ <;>
    rcases render_cases typeName suffix l₂ with ⟨n, hl₂, hr₂⟩ | ⟨-, hr₂⟩ <;> rw [hr₁, hr₂] at h
  · have htext : m.text false = n.text false := by
      have := congrArg String.toList h
      simpa using this
    have hread := Numeral.readReal_text (h₁ m hl₁)
    rw [htext, Numeral.readReal_text (h₂ n hl₂), Option.some.injEq] at hread
    rw [hl₁, hl₂, hread]
  · exact absurd h (hnumber m (h₁ m hl₁) _)
  · exact absurd h.symm (hnumber n (h₂ n hl₂) _)
  · refine className_injective (String.toList_inj.mp ?_) hne
    have := congrArg String.toList h
    simpa using this

/-- Patterns of one width with the same code are equal, or both are no number. -/
theorem eq_or_isNaN_of_render_eq (hf : 0 < f.fractionBits) {typeName suffix : String}
    (hname : ∀ rest, Numeral.startsNumber (typeName.toList ++ rest) = false) {y : BinaryFloat f}
    (h : (ofPattern isScientific x).render typeName suffix
      = (ofPattern isScientific y).render typeName suffix) :
    x = y ∨ (x.isNaN = true ∧ y.isNaN = true) := by
  have hx := denotes_ofPattern isScientific hf x
  have hy := denotes_ofPattern isScientific hf y
  have heq := render_injective hname (fun n hn => by rw [hn] at hx; exact hx.1)
    (fun n hn => by rw [hn] at hy; exact hy.1) h
  rw [← heq] at hy
  exact hx.unique hy

end FloatLiteral

/-! ### Both widths -/

theorem toList_doubleLiteral (n : Namer) {x : BinaryFloat .double} (hx : x.isFinite = true) :
    (doubleLiteral n x).toList
      = (FloatLiteral.numeralOf FloatLiteral.double.isScientific x).text false := by
  have h := FloatLiteral.toList_render_ofPattern FloatLiteral.double.isScientific hx
    (n.primitive .float64) ""
  rwa [String.toList_empty, List.append_nil] at h

theorem toList_singleLiteral (n : Namer) {x : BinaryFloat .single} (hx : x.isFinite = true) :
    (singleLiteral n x).toList
      = (FloatLiteral.numeralOf FloatLiteral.single.isScientific x).text false ++ ['f'] :=
  FloatLiteral.toList_render_ofPattern _ hx (n.primitive .float32) "f"

/-- Every literal of a finite number is a real numeral that has the sign of the number, also for
zeros, and rounds to exactly the number; in the narrow width it carries the suffix of that
width. -/
theorem literals_exact (n : Namer) :
    (∀ x : BinaryFloat .double, x.isFinite = true →
      x.WrittenExactly (doubleLiteral n x).toList) ∧
    ∀ x : BinaryFloat .single, x.isFinite = true → ∃ text,
      (singleLiteral n x).toList = text ++ ['f'] ∧ x.WrittenExactly text := by
  have hle : ∀ {f : FloatFormat} {x : BinaryFloat f}, x.isFinite = true →
      x.magnitude ≤ f.infinity := fun hx => Nat.le_of_lt (of_decide_eq_true hx)
  constructor
  · intro x hx
    rw [toList_doubleLiteral n hx]
    exact FloatLiteral.writtenExactly_numeralOf _ (by decide) (hle hx)
  · intro x hx
    exact ⟨_, toList_singleLiteral n hx,
      FloatLiteral.writtenExactly_numeralOf _ (by decide) (hle hx)⟩

/-- The least positive number of 64 bits, and the negative zero of 32 bits. -/
theorem literals_exact_least_and_negative_zero :
    (⟨1⟩ : BinaryFloat .double).isFinite = true ∧
    (⟨1⟩ : BinaryFloat .double).WrittenExactly "5.0e-324".toList ∧
    (⟨0x80000000⟩ : BinaryFloat .single).isFinite = true ∧
    ∃ text, "-0.0f".toList = text ++ ['f'] ∧
      (⟨0x80000000⟩ : BinaryFloat .single).WrittenExactly text := by
  have hfin : (⟨1⟩ : BinaryFloat .double).isFinite = true := by decide +kernel
  have hfin' : (⟨0x80000000⟩ : BinaryFloat .single).isFinite = true := by decide +kernel
  have htext : doubleLiteral (CSharp.namer false) ⟨1⟩ = "5.0e-324" := by decide +kernel
  have htext' : singleLiteral (CSharp.namer false) ⟨0x80000000⟩ = "-0.0f" := by decide +kernel
  have hexact := (literals_exact (CSharp.namer false)).1 ⟨1⟩ hfin
  have hexact' := (literals_exact (CSharp.namer false)).2 ⟨0x80000000⟩ hfin'
  rw [htext] at hexact
  rw [htext'] at hexact'
  exact ⟨hfin, hexact, hfin', hexact'⟩

end LiteralForm
