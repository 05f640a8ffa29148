/-
Canonical texts of decimal numbers.

A text is canonical if it has no needless characters: no plus sign, no minus sign in front of
zeros alone, no leading zero but a lone one, and a point only between digits
(`Decimal.IsCanonical`).

* `exists_canonical_text`: the text of a decimal number is canonical;
* `Numeral.IsCanonical.ext`: a canonical numeral is determined by its signed digits and the number
  of those behind the point;
* `parse_canonicalizes`: writing what has been read keeps the number, the digits behind the point
  and nothing else, so that it changes exactly the texts that are not canonical.

Design notes: that a canonical text is written back is not proved by following the writer.  Two
canonical texts that are read as one decimal number are equal, and what is written is one of them.
-/
import LiteralForm.Proofs.Decimal.Grammar

namespace LiteralForm

/-! Powers of natural numbers are the built-in ones, whatever else is imported. -/
attribute [local instance (2000)] instPowNat

/-! ### Canonical numerals -/

namespace Numeral

/-- The rational number that a numeral denotes. -/
def value (n : Numeral) : ℚ := if n.negative then -n.magnitude else n.magnitude

/-- A numeral of the form `-?(0|[1-9][0-9]*)(\.[0-9]{1,28})?` that has a minus sign only in front
of a digit other than zero. -/
structure IsCanonical (n : Numeral) : Prop where
  whole : IsDigits n.whole
  noLeadingZero : n.whole = ['0'] ∨ n.whole.head? ≠ some '0'
  fraction : ∀ c ∈ n.fraction, c.isDigit = true
  scale_le : n.fraction.length ≤ 28
  noExponent : n.exponent = none
  sign : n.negative = true → ∃ c ∈ n.whole ++ n.fraction, c ≠ '0'

theorem value_eq {n : Numeral} (h : n.exponent = none) :
    n.value = n.signedMantissa / 10 ^ n.fraction.length := by
  have hmagnitude : n.magnitude = n.mantissa / 10 ^ n.fraction.length := by
    rw [magnitude, h, Option.map_none, Option.getD_none, zero_sub, zpow_neg, zpow_natCast,
      ← div_eq_mul_inv]
    rfl
  rw [value, signedMantissa, hmagnitude]
  split
  · push_cast
    ring
  · push_cast
    rfl

variable {m n : Numeral}

theorem IsCanonical.isDigits (h : n.IsCanonical) : IsDigits (n.whole ++ n.fraction) :=
  h.whole.append h.fraction

/-- A canonical numeral has a minus sign exactly if it is below zero. -/
theorem IsCanonical.negative_iff (h : n.IsCanonical) :
    n.negative = true ↔ n.signedMantissa < 0 := by
  rw [signedMantissa]
  constructor
  · intro hneg
    obtain ⟨c, hc, hne⟩ := h.sign hneg
    have hpos : n.mantissa ≠ 0 := by
      intro hzero
      exact hne ((ofDigitChars_eq_zero_iff h.isDigits.isDigit).mp hzero c hc)
    rw [if_pos hneg]
    omega
  · intro hlt
    by_contra hneg
    rw [if_neg hneg] at hlt
    omega

/-- A canonical numeral is determined by its signed digits and the number of those behind the
point. -/
theorem IsCanonical.ext (hm : m.IsCanonical) (hn : n.IsCanonical)
    (hsigned : m.signedMantissa = n.signedMantissa)
    (hscale : m.fraction.length = n.fraction.length) : m = n := by
  have hnegative : m.negative = n.negative := by
    rw [Bool.eq_iff_iff, hm.negative_iff, hn.negative_iff, hsigned]
  have hmantissa : m.mantissa = n.mantissa := by
    rw [← m.natAbs_signedMantissa, hsigned, n.natAbs_signedMantissa]
  obtain ⟨hwholes, hfractions⟩ := ofDigitChars_append_inj hm.fraction hn.fraction hscale hmantissa
  have hwhole : m.whole = n.whole := by
    rw [← toDigits_ofDigitChars hm.whole hm.noLeadingZero, hwholes,
      toDigits_ofDigitChars hn.whole hn.noLeadingZero]
  have hfraction : m.fraction = n.fraction :=
    eq_of_ofDigitChars_eq hm.fraction hn.fraction hscale hfractions
  have hexponent : m.exponent = n.exponent := hm.noExponent.trans hn.noExponent.symm
  exact (Numeral.mk.injEq ..).mpr ⟨hnegative, hwhole, hfraction, hexponent⟩

theorem IsCanonical.text_eq (h : n.IsCanonical) : n.text false
    = signText n.negative ++ (n.whole ++ if n.fraction.isEmpty then [] else '.' :: n.fraction) := by
  rw [text, h.noExponent, Option.map_none, Option.getD_none, List.append_nil, List.append_assoc]

/-- The text of a canonical numeral is cut into that numeral. -/
theorem IsCanonical.cut (h : n.IsCanonical) {s : String} (hs : s.toList = n.text false) :
    Decimal.Cut s n := by
  refine ⟨⟨n.whole ++ if n.fraction.isEmpty then [] else '.' :: n.fraction, ?_, ?_⟩,
    h.noExponent⟩
  · rw [hs, h.text_eq]
    cases n.negative with
    | true => exact .minus _
    | false =>
      refine .unsigned _ ?_
      obtain ⟨c, rest, hwhole⟩ := List.exists_cons_of_ne_nil h.whole.ne_nil
      have hdigit : c.isDigit = true := h.whole.isDigit c (hwhole ▸ List.mem_cons_self)
      rw [hwhole]
      rintro d ⟨⟩
      exact ⟨ne_of_isDigit hdigit rfl, ne_of_isDigit hdigit rfl⟩
  · have hpoint : '.' ∉ n.whole := h.whole.notMem rfl
    cases n.fraction with
    | nil =>
      rw [List.isEmpty_nil, if_pos rfl, List.append_nil]
      exact .without n.whole hpoint
    | cons c fraction => exact .between n.whole (c :: fraction) hpoint

end Numeral

/-! ### Canonical texts -/

namespace Decimal

/-- The text is the one of a canonical numeral. -/
def IsCanonical (s : String) : Prop := ∃ n : Numeral, n.IsCanonical ∧ s.toList = n.text false

/-- Padded digits in front of the point begin with a zero only if there is no other digit. -/
theorem noLeadingZero_take (n scale : Nat) {digits : List Char}
    (h : digits = (Nat.toDigits 10 n).leftpad (scale + 1) '0') :
    digits.take (digits.length - scale) = ['0'] ∨
      (digits.take (digits.length - scale)).head? ≠ some '0' := by
  rcases Nat.lt_or_ge scale (Nat.toDigits 10 n).length with hlong | hshort
  · -- Nothing is padded.
    have hpad : digits = Nat.toDigits 10 n := by
      rw [h, List.leftpad, Nat.sub_eq_zero_of_le hlong, List.replicate_zero, List.nil_append]
    rw [hpad, List.head?_take, if_neg (by omega)]
    rcases Nat.eq_zero_or_pos n with rfl | hpos
    · have hscale : scale = 0 := by
        rw [Nat.toDigits_zero, List.length_singleton] at hlong
        omega
      left
      rw [hscale, Nat.toDigits_zero]
      rfl
    · exact .inr (head?_toDigits hpos)
  · -- One zero is left in front of the last `scale` digits.
    have hlen : digits.length = scale + 1 := by
      rw [h, length_leftpad]
      omega
    obtain ⟨k, hk⟩ : ∃ k, scale + 1 - (Nat.toDigits 10 n).length = k + 1 :=
      ⟨scale - (Nat.toDigits 10 n).length, by omega⟩
    left
    rw [hlen, Nat.add_sub_cancel_left, h, List.leftpad, hk, List.replicate_succ, List.cons_append,
      List.take_succ_cons, List.take_zero]

theorem noLeadingZero_of_unsignedText {n scale : Nat} {whole fraction : List Char}
    (hlen : fraction.length = scale)
    (h : unsignedText n scale = whole ++ (if scale = 0 then [] else '.' :: fraction)) :
    whole = ['0'] ∨ whole.head? ≠ some '0' := by
  have hzero := noLeadingZero_take n scale rfl
  have hpad := length_leftpad (scale + 1) (Nat.toDigits 10 n)
  rw [unsignedText] at h
  generalize (Nat.toDigits 10 n).leftpad (scale + 1) '0' = digits at h hzero hpad
  by_cases hscale : scale = 0
  · rw [if_pos hscale, if_pos hscale, List.append_nil] at h
    rw [hscale, Nat.sub_zero, List.take_length, h] at hzero
    exact hzero
  · rw [if_neg hscale, if_neg hscale] at h
    have hlength : ('.' :: digits.drop (digits.length - scale)).length
        = ('.' :: fraction).length := by
      rw [List.length_cons, List.length_cons, List.length_drop]
      omega
    obtain ⟨hwhole, -⟩ := List.append_inj' h hlength
    rw [hwhole] at hzero
    exact hzero

/-- The text of a decimal number is the one of a canonical numeral with its parts. -/
theorem exists_canonical_text (d : Decimal) : ∃ n : Numeral, n.IsCanonical ∧
    d.text.toList = n.text false ∧ n.signedMantissa = d.mantissa ∧
    n.fraction.length = d.scale := by
  obtain ⟨whole, fraction, shape, htext⟩ := unsignedText_shape d.mantissa.natAbs d.scale
  have hzero := noLeadingZero_of_unsignedText shape.length_fraction htext
  have hdigits := shape.isDigits_whole.append shape.isDigit_fraction
  let n : Numeral := ⟨d.isNegative, whole, fraction, none⟩
  have hcanonical : n.IsCanonical := by
    refine ⟨shape.isDigits_whole, hzero, shape.isDigit_fraction, ?_, rfl, ?_⟩
    · rw [shape.length_fraction]
      exact d.scale_le
    · intro hneg
      have hlt : d.mantissa < 0 := of_decide_eq_true hneg
      by_contra hnone
      have hall : ∀ c ∈ whole ++ fraction, c = '0' := fun c hc =>
        by_contra fun hne => hnone ⟨c, hc, hne⟩
      have hmantissa := (ofDigitChars_eq_zero_iff hdigits.isDigit).mpr hall
      rw [shape.number] at hmantissa
      omega
  refine ⟨n, hcanonical, ?_, ?_, shape.length_fraction⟩
  · have hpoint : (if d.scale = 0 then [] else '.' :: fraction)
        = if fraction.isEmpty then [] else '.' :: fraction := by
      rw [← shape.length_fraction]
      cases fraction <;> rfl
    rw [hcanonical.text_eq, text, String.toList_ofList, htext, hpoint]
    cases hneg : d.isNegative <;> simp [n, hneg, Numeral.signText]
  · have hmantissa : n.mantissa = d.mantissa.natAbs := shape.number
    rw [Numeral.signedMantissa, hmantissa]
    exact signed_natAbs d

theorem isCanonical_text (d : Decimal) : IsCanonical d.text := by
  obtain ⟨n, hn, htext, -, -⟩ := exists_canonical_text d
  exact ⟨n, hn, htext⟩

/-- A canonical text of a decimal number is its text. -/
theorem text_eq_of_isCanonical {s : String} {d : Decimal} (h : parse s = .ok d)
    (hs : IsCanonical s) : d.text = s := by
  obtain ⟨m, hm, hmtext⟩ := hs
  obtain ⟨n, hn, hntext, hmantissa, hscale⟩ := exists_canonical_text d
  obtain ⟨-, hscale', hmantissa'⟩ := (parse_eq_ok_iff (hm.cut hmtext)).mp h
  have heq : n = m := hn.ext hm (hmantissa.trans hmantissa') (hscale.trans hscale')
  rw [← String.toList_inj, hntext, hmtext, heq]

/-- Writing what has been read gives a canonical text of the same number with as many digits behind
the point.  It is read as before, and it is what was read exactly if that was canonical. -/
theorem parse_canonicalizes {s : String} {d : Decimal} (h : parse s = .ok d) :
    IsCanonical d.text ∧
    (∃ m n : Numeral, Cut s m ∧ Cut d.text n ∧ n.value = m.value ∧
      n.fraction.length = m.fraction.length) ∧
    parse d.text = .ok d ∧
    (d.text = s ↔ IsCanonical s) := by
  refine ⟨isCanonical_text d, ?_, parse_text d, ?_, text_eq_of_isCanonical h⟩
  · obtain ⟨m, hm, -⟩ := existsUnique_cut s
    obtain ⟨n, hn, htext, hmantissa, hscale⟩ := exists_canonical_text d
    obtain ⟨-, hscale', hmantissa'⟩ := (parse_eq_ok_iff hm).mp h
    have hlen : n.fraction.length = m.fraction.length := hscale.trans hscale'
    refine ⟨m, n, hm, hn.cut htext, ?_, hlen⟩
    rw [Numeral.value_eq hn.noExponent, Numeral.value_eq hm.noExponent, hmantissa, hmantissa', hlen]
  · intro heq
    rw [← heq]
    exact isCanonical_text d

/-- A zero below zero with a needless digit is written without both, and keeps its scale. -/
theorem parse_canonicalizes_negativeZero :
    ∃ d : Decimal, parse "-00.0" = .ok d ∧ d.text = "0.0" ∧ IsCanonical "0.0" ∧
      ¬IsCanonical "-00.0" := by
  let d : Decimal := ⟨0, 1, by decide, by decide⟩
  have hparse : parse "-00.0" = .ok d := by decide +kernel
  have htext : d.text = "0.0" := by decide +kernel
  obtain ⟨hcanonical, -, -, hiff⟩ := parse_canonicalizes hparse
  rw [htext] at hcanonical hiff
  refine ⟨d, hparse, htext, hcanonical, ?_⟩
  intro h
  exact absurd (hiff.mpr h) (by decide)

end Decimal

end LiteralForm
