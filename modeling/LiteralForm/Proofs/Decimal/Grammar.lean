/-
The grammar of decimal numbers.

A text is cut into an optional sign, a part in front of its first point and a part behind it
(`Cut`).  What is cut is kept as a `Numeral` without an exponent.

* `existsUnique_cut`: every text is cut in one way;
* `readMantissa_eq_none`: digits whose number is too large are refused, however early the reader
  notices;
* `parse_grammar`: a text is accepted exactly if its parts are digits, not both empty, with few
  enough of them behind the point and a number that fits; else the first of these conditions that
  fails is the error.

Design notes: the cut is stated by the places of the sign and the point in the text, so that it
does not depend on the functions that the reader takes the text apart with.
-/
import LiteralForm.Proofs.Decimal.Text
import Mathlib.Data.List.TakeWhile
import Mathlib.Logic.ExistsUnique

namespace LiteralForm

/-! Powers of natural numbers are the built-in ones, whatever else is imported. -/
attribute [local instance (2000)] instPowNat

namespace Decimal

/-! ### Cutting a text -/

/-- The text is an optional sign in front of a body; the flag says whether it is a minus. -/
inductive Signed : List Char → Bool → List Char → Prop
  | minus (body : List Char) : Signed ('-' :: body) true body
  | plus (body : List Char) : Signed ('+' :: body) false body
  | unsigned (body : List Char) (h : ∀ c ∈ body.head?, c ≠ '-' ∧ c ≠ '+') :
      Signed body false body

/-- The body has its first point between the two parts, or no point and no second part. -/
inductive Pointed : List Char → List Char → List Char → Prop
  | without (whole : List Char) (h : '.' ∉ whole) : Pointed whole whole []
  | between (whole fraction : List Char) (h : '.' ∉ whole) :
      Pointed (whole ++ '.' :: fraction) whole fraction

/-- The numeral has the sign of the text and the parts before and behind its first point. -/
structure Cut (s : String) (n : Numeral) : Prop where
  parts : ∃ body, Signed s.toList n.negative body ∧ Pointed body n.whole n.fraction
  noExponent : n.exponent = none

theorem Signed.splitSign_eq {text body : List Char} {negative : Bool}
    (h : Signed text negative body) : Numeral.splitSign text = (negative, body) := by
  cases h with
  | minus => rfl
  | plus => rfl
  | unsigned _ h =>
    cases text with
    | nil => rfl
    | cons c text =>
      obtain ⟨hminus, hplus⟩ := h c rfl
      simp [Numeral.splitSign, hminus, hplus]

theorem signed_splitSign (text : List Char) :
    Signed text (Numeral.splitSign text).1 (Numeral.splitSign text).2 := by
  cases text with
  | nil => exact .unsigned [] nofun
  | cons c text =>
    by_cases hminus : c = '-'
    · subst hminus
      exact .minus text
    · by_cases hplus : c = '+'
      · subst hplus
        exact .plus text
      · have h : Signed (c :: text) false (c :: text) := by
          refine .unsigned _ ?_
          rintro d ⟨⟩
          exact ⟨hminus, hplus⟩
        rw [h.splitSign_eq]
        exact h

theorem splitPoint_of_pointed {body whole fraction : List Char}
    (h : Pointed body whole fraction) : splitPoint body = (whole, fraction) := by
  have hne : ∀ {ds : List Char}, '.' ∉ ds → ∀ c ∈ ds, (c != '.') = true := by
    intro ds hds c hc
    rw [bne_iff_ne]
    rintro rfl
    exact hds hc
  cases h with
  | without _ h =>
    rw [splitPoint, List.takeWhile_eq_self_iff.mpr (hne h), List.dropWhile_eq_nil_iff.mpr (hne h)]
    rfl
  | between _ _ h =>
    rw [splitPoint, List.takeWhile_append_of_pos (hne h), List.dropWhile_append_of_pos (hne h)]
    simp

theorem pointed_splitPoint (body : List Char) :
    Pointed body (splitPoint body).1 (splitPoint body).2 := by
  have hwhole : '.' ∉ body.takeWhile (· != '.') := by
    intro h
    have hall := List.mem_takeWhile_imp h
    simp at hall
  have happend := List.takeWhile_append_dropWhile (p := (· != '.')) (l := body)
  cases hrest : body.dropWhile (· != '.') with
  | nil =>
    rw [hrest, List.append_nil] at happend
    have h := Pointed.without _ hwhole
    rw [happend] at h
    rw [splitPoint, hrest, happend]
    exact h
  | cons c rest =>
    have hc : c = '.' := by
      have hhead := List.head_dropWhile_not (· != '.') (l := body) (by simp [hrest])
      simpa [hrest] using hhead
    subst hc
    have h := Pointed.between _ rest hwhole
    rw [← hrest, happend] at h
    rw [splitPoint, hrest]
    exact h

/-- Every text is cut in one way. -/
theorem existsUnique_cut (s : String) : ∃! n, Cut s n := by
  let body := (Numeral.splitSign s.toList).2
  refine ⟨⟨(Numeral.splitSign s.toList).1, (splitPoint body).1, (splitPoint body).2, none⟩,
    ⟨⟨body, signed_splitSign s.toList, pointed_splitPoint body⟩, rfl⟩, ?_⟩
  intro n hn
  obtain ⟨negative, whole, fraction, exponent⟩ := n
  obtain ⟨⟨body', hsigned, hpointed⟩, hexponent⟩ := hn
  have hsign := hsigned.splitSign_eq
  have hpoint := splitPoint_of_pointed hpointed
  simp only at hsign hpoint hexponent
  simp only [body, hsign, hpoint, hexponent]

end Decimal

/-! ### What a numeral is worth -/

namespace Numeral

/-- The number that the digits of both parts write, as if there were no point. -/
def mantissa (n : Numeral) : Nat := Nat.ofDigitChars 10 (n.whole ++ n.fraction) 0

/-- The number of all digits with the sign of the numeral. -/
def signedMantissa (n : Numeral) : Int := if n.negative then -(n.mantissa : Int) else n.mantissa

/-- The numeral is one of a decimal number. -/
structure IsDecimal (n : Numeral) : Prop where
  digits : IsDigits (n.whole ++ n.fraction)
  scale_le : n.fraction.length ≤ 28
  mantissa_le : n.mantissa ≤ 2 ^ 96 - 1

/-- The first reason why the numeral of a text is not one of a decimal number. -/
inductive Refused (s : String) (n : Numeral) : DecimalError → Prop
  | invalid (h : ¬IsDigits (n.whole ++ n.fraction)) : Refused s n (.invalid s)
  | long (digits : IsDigits (n.whole ++ n.fraction)) (h : 28 < n.fraction.length) :
      Refused s n (.scaleOutOfRange n.fraction.length)
  | large (digits : IsDigits (n.whole ++ n.fraction)) (short : n.fraction.length ≤ 28)
      (h : 2 ^ 96 - 1 < n.mantissa) : Refused s n .overflow

theorem natAbs_signedMantissa (n : Numeral) : n.signedMantissa.natAbs = n.mantissa := by
  unfold signedMantissa
  split <;> omega

end Numeral

namespace Decimal

/-! ### Reading the parts -/

/-- The reader stops early, but only where the whole number is too large as well. -/
theorem readMantissa_eq_none {ds : List Char} {n : Nat} (hn : n ≤ maxMantissa)
    (h : maxMantissa < Nat.ofDigitChars 10 ds n) : readMantissa n ds = none := by
  induction ds generalizing n with
  | nil => exact absurd hn (Nat.not_le.mpr h)
  | cons c ds ih =>
    rw [Nat.ofDigitChars_cons, Nat.mul_comm] at h
    rw [readMantissa]
    split
    · next hle => exact ih hle h
    · rfl

section Cut

variable {s : String} {n : Numeral} (h : Cut s n)
include h

theorem parse_of_not_digits (hd : ¬IsDigits (n.whole ++ n.fraction)) :
    parse s = .error (.invalid s) := by
  obtain ⟨⟨body, hsigned, hpointed⟩, -⟩ := h
  have hcheck : ((n.whole ++ n.fraction).isEmpty || !(n.whole ++ n.fraction).all Char.isDigit)
      = true := by
    by_contra hnot
    rw [Bool.not_eq_true, Bool.or_eq_false_iff, Bool.not_eq_false', List.all_eq_true] at hnot
    exact hd ⟨by simpa using hnot.1, hnot.2⟩
  simp only [parse, hsigned.splitSign_eq, splitPoint_of_pointed hpointed, hcheck, if_true]

theorem parse_of_digits (hd : IsDigits (n.whole ++ n.fraction)) :
    parse s = if maxScale < n.fraction.length then .error (.scaleOutOfRange n.fraction.length)
      else (readMantissa 0 (n.whole ++ n.fraction)).elim (.error .overflow) fun m =>
        ofParts (if n.negative then -(m : Int) else m) n.fraction.length := by
  obtain ⟨⟨body, hsigned, hpointed⟩, -⟩ := h
  have hempty : (n.whole ++ n.fraction).isEmpty = false := by simpa using hd.ne_nil
  have hall : (n.whole ++ n.fraction).all Char.isDigit = true := List.all_eq_true.mpr hd.isDigit
  simp only [parse, hsigned.splitSign_eq, splitPoint_of_pointed hpointed, hempty, hall,
    Bool.not_true, Bool.or_self, Bool.false_eq_true, if_false]
  cases readMantissa 0 (n.whole ++ n.fraction) <;> rfl

theorem parse_of_refused {e : DecimalError} (he : n.Refused s e) : parse s = .error e := by
  cases he with
  | invalid hd => exact parse_of_not_digits h hd
  | long hd hlong =>
    have hscale : maxScale < n.fraction.length := hlong
    rw [parse_of_digits h hd, if_pos hscale]
  | large hd hshort hlarge =>
    have hscale : ¬maxScale < n.fraction.length := Nat.not_lt.mpr hshort
    rw [parse_of_digits h hd, if_neg hscale, readMantissa_eq_none (Nat.zero_le _) hlarge]
    rfl

theorem parse_of_isDecimal (hdecimal : n.IsDecimal) :
    parse s = ofParts n.signedMantissa n.fraction.length := by
  have hscale : ¬maxScale < n.fraction.length := Nat.not_lt.mpr hdecimal.scale_le
  rw [parse_of_digits h hdecimal.digits, if_neg hscale, readMantissa_eq hdecimal.mantissa_le]
  rfl

end Cut

/-! ### What is accepted -/

theorem isDecimal_or_refused (s : String) (n : Numeral) : n.IsDecimal ∨ ∃ e, n.Refused s e := by
  by_cases hdigits : IsDigits (n.whole ++ n.fraction)
  · rcases Nat.lt_or_ge 28 n.fraction.length with hlong | hshort
    · exact .inr ⟨_, .long hdigits hlong⟩
    · rcases Nat.lt_or_ge (2 ^ 96 - 1) n.mantissa with hlarge | hsmall
      · exact .inr ⟨_, .large hdigits hshort hlarge⟩
      · exact .inl ⟨hdigits, hshort, hsmall⟩
  · exact .inr ⟨_, .invalid hdigits⟩

theorem parse_eq_ok_iff {s : String} {n : Numeral} (h : Cut s n) {d : Decimal} :
    parse s = .ok d ↔
      n.IsDecimal ∧ d.scale = n.fraction.length ∧ d.mantissa = n.signedMantissa := by
  constructor
  · intro hparse
    rcases isDecimal_or_refused s n with hdecimal | ⟨e, hrefused⟩
    · rw [parse_of_isDecimal h hdecimal, ofParts_eq_ok_iff] at hparse
      exact ⟨hdecimal, hparse.2, hparse.1⟩
    · rw [parse_of_refused h hrefused] at hparse
      cases hparse
  · rintro ⟨hdecimal, hscale, hmantissa⟩
    rw [parse_of_isDecimal h hdecimal, ofParts_eq_ok_iff]
    exact ⟨hmantissa, hscale⟩

theorem exists_parse_eq_ok_iff {s : String} {n : Numeral} (h : Cut s n) :
    (∃ d, parse s = .ok d) ↔ n.IsDecimal := by
  constructor
  · rintro ⟨d, hparse⟩
    exact ((parse_eq_ok_iff h).mp hparse).1
  · intro hdecimal
    have hle : n.signedMantissa.natAbs ≤ maxMantissa := by
      rw [n.natAbs_signedMantissa]
      exact hdecimal.mantissa_le
    let d : Decimal := ⟨n.signedMantissa, n.fraction.length, hle, hdecimal.scale_le⟩
    exact ⟨d, (parse_eq_ok_iff h).mpr ⟨hdecimal, rfl, rfl⟩⟩

theorem parse_eq_error_iff {s : String} {n : Numeral} (h : Cut s n) {e : DecimalError} :
    parse s = .error e ↔ n.Refused s e := by
  constructor
  · intro hparse
    rcases isDecimal_or_refused s n with hdecimal | ⟨e', hrefused⟩
    · obtain ⟨d, hd⟩ := (exists_parse_eq_ok_iff h).mpr hdecimal
      rw [hd] at hparse
      cases hparse
    · rw [parse_of_refused h hrefused] at hparse
      cases hparse
      exact hrefused
  · intro hrefused
    exact parse_of_refused h hrefused

/-- A text is accepted exactly if the numeral that it is cut into fits a decimal number, and then
gives the number with all its digits, their sign and as many of them behind the point.  Any other
text is refused for the first condition that its numeral fails. -/
theorem parse_grammar (s : String) : ∃ n : Numeral, (Cut s n ∧ ∀ m, Cut s m → m = n) ∧
    ((∃ d, parse s = .ok d) ↔ n.IsDecimal) ∧
    (∀ d, parse s = .ok d ↔
      n.IsDecimal ∧ d.scale = n.fraction.length ∧ d.mantissa = n.signedMantissa) ∧
    ∀ e, parse s = .error e ↔ n.Refused s e := by
  obtain ⟨n, hcut, hunique⟩ := existsUnique_cut s
  exact ⟨n, ⟨hcut, hunique⟩, exists_parse_eq_ok_iff hcut, fun _ => parse_eq_ok_iff hcut,
    fun _ => parse_eq_error_iff hcut⟩

end Decimal

end LiteralForm
