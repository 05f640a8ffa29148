/-
Real numerals, written and read.

A real numeral has digits on both sides of its point and, if it has an exponent, digits there.

* `Numeral.magnitude` is the number that a numeral denotes, without its sign;
* `readReal` reads a whole text as a real numeral, and accepts exactly the texts of real
  numerals (`readReal_eq_some_iff`);
* `positional_magnitude`, `scientific_magnitude`: both notations of a decimal denote it.
-/
import LiteralForm.Proofs.Digits
import LiteralForm.Proofs.Float.Shortest
import LiteralForm.Float.Notation

namespace LiteralForm

/-! Powers of natural numbers are the built-in ones, whatever else is imported. -/
attribute [local instance (2000)] instPowNat

namespace Numeral

/-! ### What a numeral denotes -/

/-- The number that a numeral denotes, without its sign. -/
def magnitude (n : Numeral) : ℚ :=
  Nat.ofDigitChars 10 (n.whole ++ n.fraction) 0
    * (10 : ℚ) ^ ((n.exponent.map Exponent.value).getD 0 - n.fraction.length)

/-- There are digits on both sides of the point, and in the exponent if there is one. -/
structure IsReal (n : Numeral) : Prop where
  whole : IsDigits n.whole
  fraction : IsDigits n.fraction
  exponent : ∀ e ∈ n.exponent, IsDigits e.digits

/-! ### Reading -/

/-- Reads what is left of a numeral after its fraction. -/
def readExponent : List Char → Option (Option Exponent)
  | [] => some none
  | c :: rest =>
    let (negative, digits) := splitMinus rest
    if c = 'e' ∧ digits ≠ [] ∧ digits.all Char.isDigit then some (some ⟨negative, digits⟩)
    else none

/-- Reads a text of the form `-?D+.D+`, optionally followed by `e-?D+`. -/
def readReal (text : List Char) : Option Numeral :=
  let (negative, rest) := splitMinus text
  let whole := rest.takeWhile Char.isDigit
  match rest.dropWhile Char.isDigit with
  | [] => none
  | c :: rest =>
    let fraction := rest.takeWhile Char.isDigit
    if c = '.' ∧ whole ≠ [] ∧ fraction ≠ [] then
      (readExponent (rest.dropWhile Char.isDigit)).map fun e => ⟨negative, whole, fraction, e⟩
    else none

theorem splitMinus_signText (negative : Bool) {ds : List Char} (hd : IsDigits ds)
    (rest : List Char) :
    splitMinus (signText negative ++ (ds ++ rest)) = (negative, ds ++ rest) := by
  cases negative with
  | true => rfl
  | false =>
    cases ds with
    | nil => exact absurd rfl hd.ne_nil
    | cons c ds =>
      have hc : c ≠ '-' := ne_of_isDigit (hd.isDigit c List.mem_cons_self) rfl
      simp only [signText, Bool.false_eq_true, if_false, List.nil_append, List.cons_append]
      rw [splitMinus]
      simp [hc]

/-- The text begins with a minus sign or a digit. -/
def startsNumber (text : List Char) : Bool := text.head?.any fun c => c == '-' || c.isDigit

theorem startsNumber_signText (negative : Bool) {ds : List Char} (hd : IsDigits ds)
    (rest : List Char) : startsNumber (signText negative ++ (ds ++ rest)) = true := by
  obtain ⟨c, ds', rfl⟩ := List.exists_cons_of_ne_nil hd.ne_nil
  have hc := hd.isDigit c List.mem_cons_self
  cases negative with
  | true => rfl
  | false => simp [startsNumber, signText, hc]

theorem signText_splitMinus (text : List Char) :
    signText (splitMinus text).1 ++ (splitMinus text).2 = text := by
  unfold splitMinus
  split <;> rfl

theorem readExponent_text {e : Option Exponent} (he : ∀ x ∈ e, IsDigits x.digits) :
    readExponent ((e.map (Exponent.text false)).getD []) = some e := by
  cases e with
  | none => rfl
  | some e =>
    have hd := he e rfl
    have hsplit := splitMinus_signText e.negative hd []
    rw [List.append_nil] at hsplit
    simpa [Exponent.text, readExponent, hsplit, hd.ne_nil] using hd.isDigit

theorem eq_text_of_readExponent {text : List Char} {e : Option Exponent}
    (h : readExponent text = some e) :
    (∀ x ∈ e, IsDigits x.digits) ∧ text = (e.map (Exponent.text false)).getD [] := by
  cases text with
  | nil =>
    cases h
    exact ⟨by simp, rfl⟩
  | cons c rest =>
    simp only [readExponent] at h
    split at h
    · next hc =>
      cases h
      refine ⟨?_, ?_⟩
      · rintro x ⟨⟩
        exact ⟨hc.2.1, List.all_eq_true.mp hc.2.2⟩
      · simp [Exponent.text, hc.1, signText_splitMinus]
    · simp at h

/-- What follows the fraction is no digit. -/
theorem endsDigits_exponent (e : Option Exponent) :
    EndsDigits ((e.map (Exponent.text false)).getD []) := by
  cases e with
  | none => simp [EndsDigits]
  | some e =>
    rintro c ⟨⟩
    rfl

theorem endsDigits_point (rest : List Char) : EndsDigits ('.' :: rest) := by
  rintro c ⟨⟩
  rfl

theorem IsReal.text_eq {n : Numeral} (h : n.IsReal) :
    n.text false = signText n.negative ++ (n.whole ++ '.' :: (n.fraction
      ++ (n.exponent.map (Exponent.text false)).getD [])) := by
  have hne : n.fraction.isEmpty = false := by simpa using h.fraction.ne_nil
  simp [text, hne]

theorem IsReal.startsNumber_text {n : Numeral} (h : n.IsReal) (rest : List Char) :
    startsNumber (n.text false ++ rest) = true := by
  rw [h.text_eq, List.append_assoc, List.append_assoc]
  exact startsNumber_signText _ h.whole _

/-- The text begins with a minus sign exactly if the numeral is negative. -/
theorem IsReal.head?_text {n : Numeral} (h : n.IsReal) :
    (n.text false).head? = some '-' ↔ n.negative = true := by
  rw [h.text_eq]
  cases hn : n.negative with
  | true => simp [signText]
  | false =>
    obtain ⟨c, rest, hw⟩ := List.exists_cons_of_ne_nil h.whole.ne_nil
    have hc := h.whole.isDigit c (by simp [hw])
    simp only [signText, hw, Bool.false_eq_true, if_false, List.nil_append, List.cons_append,
      List.head?_cons, Option.some.injEq, iff_false]
    exact ne_of_isDigit hc rfl

theorem IsReal.point_mem_text {n : Numeral} (h : n.IsReal) : '.' ∈ n.text false := by
  rw [h.text_eq]
  simp

/-- Without an exponent a real numeral ends with its fraction. -/
theorem IsReal.lastIsDigit {n : Numeral} (h : n.IsReal) : LastIsDigit (n.text false) := by
  rw [h.text_eq]
  cases he : n.exponent with
  | none =>
    have := h.fraction.lastIsDigit (signText n.negative ++ (n.whole ++ ['.']))
    simpa using this
  | some e =>
    have := (h.exponent e he).lastIsDigit (signText n.negative ++ (n.whole ++ '.' :: (n.fraction
      ++ 'e' :: signText e.negative)))
    simpa [Exponent.text] using this

/-- The text of a real numeral is read back. -/
theorem readReal_text {n : Numeral} (h : n.IsReal) : readReal (n.text false) = some n := by
  have hexp := endsDigits_exponent n.exponent
  rw [h.text_eq, readReal, splitMinus_signText _ h.whole]
  simp only [takeWhile_digits h.whole (endsDigits_point _),
    dropWhile_digits h.whole (endsDigits_point _), takeWhile_digits h.fraction hexp,
    dropWhile_digits h.fraction hexp, readExponent_text h.exponent]
  simp [h.whole.ne_nil, h.fraction.ne_nil]

/-- The texts that are read are exactly the texts of real numerals. -/
theorem readReal_eq_some_iff {text : List Char} {n : Numeral} :
    readReal text = some n ↔ n.IsReal ∧ text = n.text false := by
  constructor
  · intro h
    simp only [readReal] at h
    split at h
    · simp at h
    · next c rest hrest =>
      split at h
      · next hc =>
        obtain ⟨hpoint, hwhole, hfraction⟩ := hc
        obtain ⟨e, he, rfl⟩ := Option.map_eq_some_iff.mp h
        obtain ⟨hdigits, htext⟩ := eq_text_of_readExponent he
        have hreal : IsReal ⟨(splitMinus text).1, (splitMinus text).2.takeWhile Char.isDigit,
            rest.takeWhile Char.isDigit, e⟩ :=
          ⟨isDigits_takeWhile hwhole, isDigits_takeWhile hfraction, hdigits⟩
        refine ⟨hreal, ?_⟩
        rw [hreal.text_eq]
        simp only
        rw [← htext, List.takeWhile_append_dropWhile, ← hpoint, ← hrest,
          List.takeWhile_append_dropWhile, signText_splitMinus]
      · simp at h
  · rintro ⟨hreal, rfl⟩
    exact readReal_text hreal

theorem zero_isReal (negative : Bool) : (zero negative).IsReal :=
  ⟨isDigits_zero, isDigits_zero, by simp [zero]⟩

theorem zero_magnitude (negative : Bool) : (zero negative).magnitude = 0 := by
  simp [magnitude, zero, Nat.ofDigitChars]

theorem Exponent.ofInt_value (n : Int) : (ofInt n).value = n := by
  unfold ofInt value
  by_cases h : n < 0
  · simp only [h, decide_true, if_true, Nat.ofDigitChars_ten_toDigits]
    omega
  · simp only [h, decide_false, Bool.false_eq_true, if_false, Nat.ofDigitChars_ten_toDigits]
    omega

end Numeral

/-! ### The two notations -/

namespace Scientific

variable (s : Scientific) (negative : Bool)

theorem positional_isReal : (s.positional negative).IsReal := by
  have hd : IsDigits s.digitText := isDigits_toDigits s.digits
  unfold positional
  split
  · exact ⟨hd.append fun _ => isDigit_of_mem_replicate, isDigits_zero, by simp⟩
  · next h =>
    have hpad := hd.leftpad ((-s.power).toNat + 1)
    have hlen := length_leftpad ((-s.power).toNat + 1) s.digitText
    refine ⟨hpad.of_subset ?_ (List.take_subset _ _), hpad.of_subset ?_ (List.drop_subset _ _),
      by simp⟩
    · intro hnil
      have := congrArg List.length hnil
      rw [List.length_take, List.length_nil] at this
      omega
    · intro hnil
      have := congrArg List.length hnil
      rw [List.length_drop, List.length_nil] at this
      omega

theorem positional_magnitude : (s.positional negative).magnitude = s.value := by
  unfold positional value
  split
  · next h =>
    obtain ⟨n, hn⟩ := Int.eq_ofNat_of_zero_le h
    rw [hn]
    simp [Numeral.magnitude, digitText, Nat.ofDigitChars_append, Nat.ofDigitChars_cons]
    ring
  · next h =>
    obtain ⟨n, hn⟩ : ∃ n : Nat, s.power = -n := ⟨(-s.power).toNat, by omega⟩
    have hlen := length_leftpad (n + 1) s.digitText
    rw [hn]
    simp only [Numeral.magnitude, Int.neg_neg, Int.toNat_natCast, List.take_append_drop,
      ofDigitChars_leftpad, List.length_drop]
    rw [show (s.digitText.leftpad (n + 1) '0').length
      - ((s.digitText.leftpad (n + 1) '0').length - n) = n by omega]
    simp [digitText]

theorem scientific_isReal : (s.scientific negative true).IsReal := by
  have hd : IsDigits s.digitText := isDigits_toDigits s.digits
  unfold scientific
  refine ⟨hd.of_subset ?_ (List.take_subset _ _), ?_, ?_⟩
  · simpa using hd.ne_nil
  · simp only [Bool.and_true]
    split
    · exact isDigits_zero
    · next h => exact hd.of_subset (by simpa using h) (List.drop_subset _ _)
  · rintro e ⟨⟩
    exact isDigits_toDigits _

theorem scientific_magnitude : (s.scientific negative true).magnitude = s.value := by
  have hval : Nat.ofDigitChars 10 s.digitText 0 = s.digits := Nat.ofDigitChars_ten_toDigits
  unfold scientific pointPosition value
  cases hds : s.digitText with
  | nil => exact absurd hds Nat.toDigits_ne_nil
  | cons c rest =>
    rw [hds] at hval
    cases rest with
    | nil =>
      -- The zero after a lone digit makes the number before the power ten times as large.
      have hten : Nat.ofDigitChars 10 ([c] ++ ['0']) 0 = 10 * s.digits := by
        rw [Nat.ofDigitChars_append, hval]
        simp [Nat.ofDigitChars_cons]
      have hpower : (10 : ℚ) ^ s.power = 10 ^ (s.power - 1) * 10 := by
        rw [← zpow_add_one₀ (by norm_num), sub_add_cancel]
      simp only [Numeral.magnitude, List.take_one, List.head?_cons, Option.toList_some,
        List.drop_one, List.tail_cons, List.isEmpty_nil, Bool.and_self, if_true, hten,
        Option.map_some, Option.getD_some, Numeral.Exponent.ofInt_value, List.length_singleton]
      rw [hpower, show ((1 : Nat) : Int) + s.power - 1 - (1 : Nat) = s.power - 1 by omega]
      push_cast
      ring
    | cons d rest =>
      simp only [Numeral.magnitude, List.take_one, List.head?_cons, Option.toList_some,
        List.drop_one, List.tail_cons, List.isEmpty_cons, Bool.false_and, Bool.false_eq_true,
        if_false, List.singleton_append, hval, Option.map_some, Option.getD_some,
        Numeral.Exponent.ofInt_value, List.length_cons]
      congr 2
      omega

end Scientific

end LiteralForm
