/-
Decimal numbers survive their text.

* `ofParts_eq_ok_iff`: parts that are accepted are kept as they are;
* `unsignedText_shape`: the text of a number without its sign is a string of digits, cut by a
  point before as many digits as the scale says;
* `readMantissa_eq`: digits are read to their end as long as their number fits;
* `parse_text`: reading the text of a decimal gives the decimal, scale included, so that
  decimals with one literal are equal (`literal_injective`).
-/
import LiteralForm.Decimal.Text
import LiteralForm.Proofs.Numeral

namespace LiteralForm.Decimal

theorem ofParts_eq_ok_iff {m : Int} {s : Nat} {d : Decimal} :
    ofParts m s = .ok d ↔ d.mantissa = m ∧ d.scale = s := by
  constructor
  · intro h
    unfold ofParts at h
    split at h
    · split at h
      · cases h
        exact ⟨rfl, rfl⟩
      · cases h
    · cases h
  · rintro ⟨rfl, rfl⟩
    unfold ofParts
    rw [dif_pos d.scale_le, dif_pos d.mantissa_le]

/-- The sign and the digits of a decimal make up its mantissa. -/
theorem signed_natAbs (d : Decimal) :
    (if d.isNegative then -(d.mantissa.natAbs : Int) else d.mantissa.natAbs) = d.mantissa := by
  by_cases h : d.mantissa < 0
  · simp only [isNegative, h, decide_true, if_true]
    omega
  · simp only [isNegative, h, decide_false, Bool.false_eq_true, if_false]
    omega

/-! ### The shape of the text -/

/-- Digits before the point and as many after it as the scale says, the point left out where
there are none. -/
structure Shape (n scale : Nat) (whole fraction : List Char) : Prop where
  isDigits_whole : IsDigits whole
  isDigit_fraction : ∀ c ∈ fraction, c.isDigit = true
  length_fraction : fraction.length = scale
  number : Nat.ofDigitChars 10 (whole ++ fraction) 0 = n

theorem unsignedText_shape (n scale : Nat) : ∃ whole fraction, Shape n scale whole fraction ∧
    unsignedText n scale = whole ++ (if scale = 0 then [] else '.' :: fraction) := by
  have hpad := (isDigits_toDigits n).leftpad (scale + 1)
  have hlen := length_leftpad (scale + 1) (Nat.toDigits 10 n)
  have hnum := ofDigitChars_leftpad (scale + 1) (Nat.toDigits 10 n)
  rw [Nat.ofDigitChars_ten_toDigits] at hnum
  unfold unsignedText
  generalize (Nat.toDigits 10 n).leftpad (scale + 1) '0' = digits at hpad hlen hnum
  refine ⟨digits.take (digits.length - scale), digits.drop (digits.length - scale), ?_, ?_⟩
  · constructor
    · refine hpad.of_subset ?_ (List.take_subset _ _)
      rw [ne_eq, List.take_eq_nil_iff]
      rintro (h | h)
      · omega
      · exact hpad.ne_nil h
    · exact fun c hc => hpad.isDigit c (List.drop_subset _ _ hc)
    · rw [List.length_drop]
      omega
    · rw [List.take_append_drop]
      exact hnum
  · by_cases h : scale = 0
    · subst h
      simp
    · simp [h]

/-! ### Reading it back -/

theorem splitSign_digits {ds : List Char} (hd : IsDigits ds) (rest : List Char) :
    Numeral.splitSign (ds ++ rest) = (false, ds ++ rest) := by
  obtain ⟨c, ds', rfl⟩ := List.exists_cons_of_ne_nil hd.ne_nil
  have hc := hd.isDigit c List.mem_cons_self
  have hminus : c ≠ '-' := ne_of_isDigit hc rfl
  have hplus : c ≠ '+' := ne_of_isDigit hc rfl
  simp [Numeral.splitSign, hminus, hplus]

theorem splitPoint_digits {whole fraction : List Char} (hw : IsDigits whole)
    (hf : ∀ c ∈ fraction, c.isDigit = true) :
    splitPoint (whole ++ (if fraction.length = 0 then [] else '.' :: fraction))
      = (whole, fraction) := by
  have hpoint : ∀ c ∈ whole, (c != '.') = true := by
    intro c hc
    exact bne_iff_ne.mpr (ne_of_isDigit (hw.isDigit c hc) rfl)
  rw [splitPoint, List.takeWhile_append_of_pos hpoint, List.dropWhile_append_of_pos hpoint]
  cases fraction with
  | nil => simp
  | cons c fraction => simp

/-- Digits are read to their end if the number they make fits a mantissa: every number on the
way is smaller. -/
theorem readMantissa_eq {ds : List Char} {n : Nat}
    (h : Nat.ofDigitChars 10 ds n ≤ maxMantissa) :
    readMantissa n ds = some (Nat.ofDigitChars 10 ds n) := by
  induction ds generalizing n with
  | nil => simp [readMantissa]
  | cons c ds ih =>
    rw [Nat.ofDigitChars_cons] at h ⊢
    have hle := le_ofDigitChars ds (10 * n + (c.toNat - '0'.toNat))
    rw [readMantissa, Nat.mul_comm n 10, if_pos (Nat.le_trans hle h), ih h]

theorem parse_text (d : Decimal) : parse d.text = .ok d := by
  obtain ⟨whole, fraction, shape, htext⟩ := unsignedText_shape d.mantissa.natAbs d.scale
  have hsign : Numeral.splitSign d.text.toList
      = (d.isNegative, unsignedText d.mantissa.natAbs d.scale) := by
    rw [text, String.toList_ofList]
    cases d.isNegative with
    | true => rfl
    | false =>
      rw [htext]
      exact splitSign_digits shape.isDigits_whole _
  have hpoint : splitPoint (unsignedText d.mantissa.natAbs d.scale) = (whole, fraction) := by
    rw [htext, ← shape.length_fraction]
    exact splitPoint_digits shape.isDigits_whole shape.isDigit_fraction
  have hall := shape.isDigits_whole.append shape.isDigit_fraction
  have hread : readMantissa 0 (whole ++ fraction) = some d.mantissa.natAbs := by
    rw [readMantissa_eq (by rw [shape.number]; exact d.mantissa_le), shape.number]
  have hempty : (whole ++ fraction).isEmpty = false := by simpa using hall.ne_nil
  have hdigit : (whole ++ fraction).all Char.isDigit = true := List.all_eq_true.mpr hall.isDigit
  simp only [parse, hsign, hpoint, hempty, hdigit, hread, Bool.not_true, Bool.or_self,
    Bool.false_eq_true, if_false, signed_natAbs, shape.length_fraction]
  simp [ofParts, d.scale_le, d.mantissa_le]

theorem startsNumber_text (d : Decimal) (rest : List Char) :
    Numeral.startsNumber (d.text.toList ++ rest) = true := by
  obtain ⟨whole, fraction, shape, htext⟩ := unsignedText_shape d.mantissa.natAbs d.scale
  have hsigned : d.text.toList
      = Numeral.signText d.isNegative ++ unsignedText d.mantissa.natAbs d.scale := by
    rw [text, String.toList_ofList]
    cases d.isNegative <;> rfl
  rw [hsigned, htext, List.append_assoc, List.append_assoc]
  exact Numeral.startsNumber_signText _ shape.isDigits_whole _

theorem literal_injective {a b : Decimal} (h : a.literal = b.literal) : a = b := by
  have htext : a.text = b.text := by simpa [literal] using h
  have hparse := parse_text a
  rw [htext, parse_text b] at hparse
  cases hparse
  rfl

end LiteralForm.Decimal
