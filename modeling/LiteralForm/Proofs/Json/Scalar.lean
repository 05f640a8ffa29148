/-
Strings and numbers of JSON, written and read.

* `readString_stringText`: a string is read back in front of any text;
* `Numeral.IsJson`: the numerals that are numbers of JSON; the numerals of integers are among
  them (`isJson_ofInt`) and keep their number (`integer?_ofInt`);
* `readNumber_text`: a number is read back in front of a text that does not continue it.

Design notes: a reader of numbers takes all digits, a point and an exponent that it can find, so
something is asked of the text behind a number (`EndsNumber`).  A string ends with its own quote.
-/
import LiteralForm.Json.Number
import LiteralForm.Json.Reader
import LiteralForm.Proofs.Numeral
import LiteralForm.Proofs.Text.Unescape

namespace LiteralForm

namespace Json

/-! ### Strings -/

theorem readUnits_simple {e c : Char} (h : simpleEscape? e = some c) (rest : List Char) :
    readUnits ('\\' :: e :: rest) = (readUnits rest).map fun r => (c.toNat :: r.1, r.2) := by
  have he : e ≠ 'u' := by
    rintro rfl
    cases h
  rw [readUnits, h]
  · rintro _ _ _ _ _ rfl
    exact absurd rfl he

theorem readUnits_hex4 {n : Nat} (h : n < 65536) (rest : List Char) :
    readUnits ('\\' :: 'u' :: (Text.hex4 n ++ rest))
      = (readUnits rest).map fun r => (n :: r.1, r.2) := by
  have hunit : hexUnit? (Text.hex4 n) = some n := by
    have hall : (Text.hex4 n).all (fun c => (Text.hexDigit? c).isSome) = true :=
      List.all_eq_true.mpr fun c hc =>
        Text.isSome_hexDigit?_iff.mpr ((Text.longestRun_hex4 n []).hex c hc)
    rw [hexUnit?, if_pos ⟨rfl, hall⟩, (Text.isHexNumber_hex4 h).eq]
  show readUnits ('\\' :: 'u' :: _ :: _ :: _ :: _ :: rest) = _
  rw [readUnits, show hexUnit? [_, _, _, _] = some n from hunit]

theorem readUnits_plain {c : Char} (hquote : c ≠ '\x22') (hslash : c ≠ '\\') (hc : ¬c.toNat < 0x20)
    (rest : List Char) :
    readUnits (c :: rest) = (readUnits rest).map fun r => (c.toNat :: r.1, r.2) := by
  rw [readUnits, if_neg (by simp [hslash, hc])]
  · exact hquote
  · intro _ _ _ _ _ h
    exact absurd h hslash
  · intro _ _ h
    exact absurd h hslash

/-- A character inside a string is read back as its number. -/
theorem readUnits_charText (c : Char) (rest : List Char) :
    readUnits (charText c ++ rest) = (readUnits rest).map fun r => (c.toNat :: r.1, r.2) := by
  unfold charText
  -- Seven characters have an escape of one letter.
  iterate 7
    split
    · next h =>
      subst h
      exact readUnits_simple rfl rest
  split
  · next h => exact readUnits_hex4 (by omega) rest
  · next hquote hslash _ _ _ _ _ hc => exact readUnits_plain hquote hslash hc rest

theorem readUnits_stringText (s rest : List Char) :
    readUnits (s.flatMap charText ++ '\x22' :: rest) = some (s.map Char.toNat, rest) := by
  induction s with
  | nil => rw [List.flatMap_nil, List.nil_append, readUnits, List.map_nil]
  | cons c s ih =>
    rw [List.flatMap_cons, List.append_assoc, readUnits_charText, ih]
    rfl

/-- No character is half of a pair of surrogates. -/
theorem isHighSurrogate_toNat (c : Char) : isHighSurrogate c.toNat = false := by
  have hvalid : c.toNat.isValidChar := c.valid
  simp only [isHighSurrogate, Nat.isValidChar] at *
  rw [Bool.and_eq_false_iff, decide_eq_false_iff_not, decide_eq_false_iff_not]
  omega

theorem pairSurrogates_toNat (s : List Char) : pairSurrogates (s.map Char.toNat) = some s := by
  induction s with
  | nil => rfl
  | cons c s ih =>
    cases s with
    | nil =>
      rw [List.map_cons, List.map_nil, pairSurrogates, Text.charOfNumber?_toNat, Option.map_some]
    | cons d s =>
      rw [List.map_cons, List.map_cons, pairSurrogates, isHighSurrogate_toNat, if_neg (by simp),
        Text.charOfNumber?_toNat, ← List.map_cons, ih]
      rfl

/-- A string is read back in front of any text. -/
theorem readString_stringText (s : String) (rest : List Char) :
    readString (s.toList.flatMap charText ++ '\x22' :: rest) = some (some s, rest) := by
  rw [readString, readUnits_stringText, Option.map_some, pairSurrogates_toNat, Option.map_some,
    String.ofList_toList]

end Json

/-! ### Numbers -/

namespace Numeral

/-- A number of JSON: digits without leading zeros, and where there is a point or an exponent,
digits behind it. -/
structure IsJson (n : Numeral) : Prop where
  whole : IsDigits n.whole
  noLeadingZero : n.whole = ['0'] ∨ n.whole.head? ≠ some '0'
  fraction : ∀ c ∈ n.fraction, c.isDigit = true
  exponent : ∀ e ∈ n.exponent, IsDigits e.digits

theorem isJson_ofInt (n : Int) : (ofInt n).IsJson where
  whole := isDigits_toDigits n.natAbs
  noLeadingZero := by
    rcases Nat.eq_zero_or_pos n.natAbs with hzero | hpos
    · exact .inl (by rw [ofInt, hzero]; rfl)
    · exact .inr (head?_toDigits hpos)
  fraction := nofun
  exponent := nofun

theorem wholeNumber_ofInt (n : Int) : (ofInt n).wholeNumber = n.natAbs :=
  Nat.ofDigitChars_ten_toDigits

/-- The numeral of an integer has that integer as its value. -/
theorem integer?_ofInt (n : Int) : (ofInt n).integer? = some n := by
  show some (if decide (n < 0) = true then -((ofInt n).wholeNumber : Int)
    else (ofInt n).wholeNumber) = some n
  rw [wholeNumber_ofInt, Option.some.injEq]
  split
  · next h =>
    have hneg := of_decide_eq_true h
    omega
  · next h =>
    have hpos : ¬n < 0 := fun hn => h (decide_eq_true hn)
    omega

/-- Zero is written without a sign. -/
theorem isNegativeZero_ofInt (n : Int) : (ofInt n).isNegativeZero = false := by
  rw [isNegativeZero, wholeNumber_ofInt]
  by_cases h : n < 0
  · rw [Bool.and_eq_false_iff, beq_eq_false_iff_ne]
    exact .inr (by omega)
  · simp [ofInt, h]

end Numeral

namespace Json

/-- The text does not continue a number in front of it. -/
def EndsNumber (text : List Char) : Prop :=
  ∀ c ∈ text.head?, c.isDigit = false ∧ c ≠ '.' ∧ c ≠ 'e' ∧ c ≠ 'E'

theorem readWhole_digits {ds rest : List Char} (hd : IsDigits ds)
    (hzero : ds = ['0'] ∨ ds.head? ≠ some '0') (hr : EndsDigits rest) :
    readWhole (ds ++ rest) = some (ds, rest) := by
  rcases hzero with rfl | hzero
  · rfl
  · obtain ⟨c, ds', rfl⟩ := List.exists_cons_of_ne_nil hd.ne_nil
    have hc : c ≠ '0' := fun h => hzero (congrArg some h)
    unfold readWhole
    split
    · next heq => exact absurd (List.cons.inj heq).1 hc
    · rw [splitDigits, takeWhile_digits hd hr, dropWhile_digits hd hr]
      rfl

theorem readFraction_text {ds rest : List Char} (hd : ∀ c ∈ ds, c.isDigit = true)
    (hr : EndsDigits rest) (hpoint : rest.head? ≠ some '.') :
    readFraction ((if ds.isEmpty then [] else '.' :: ds) ++ rest) = some (ds, rest) := by
  cases ds with
  | nil =>
    rw [List.isEmpty_nil, if_pos rfl, List.nil_append, readFraction]
    rintro text rfl
    exact hpoint rfl
  | cons c ds =>
    have hdigits : IsDigits (c :: ds) := ⟨List.cons_ne_nil c ds, hd⟩
    rw [List.isEmpty_cons, if_neg Bool.false_ne_true, List.cons_append, readFraction, splitDigits,
      takeWhile_digits hdigits hr, dropWhile_digits hdigits hr]
    rfl

theorem readExponent_text {e : Option Numeral.Exponent} (he : ∀ x ∈ e, IsDigits x.digits)
    {rest : List Char} (hr : EndsNumber rest) :
    readExponent ((e.map (Numeral.Exponent.text true)).getD [] ++ rest) = some (e, rest) := by
  cases e with
  | none =>
    cases rest with
    | nil => rfl
    | cons c rest =>
      obtain ⟨-, -, hlower, hupper⟩ := hr c rfl
      show readExponent (c :: rest) = _
      rw [readExponent, if_neg (by simp [hlower, hupper])]
  | some x =>
    have hd : IsDigits x.digits := he x rfl
    have hends : EndsDigits rest := fun c hc => (hr c hc).1
    have hsign : Numeral.splitSign ((if true && !x.negative then ['+']
        else Numeral.signText x.negative) ++ x.digits ++ rest)
        = (x.negative, x.digits ++ rest) := by
      cases x.negative <;> rfl
    show readExponent ('e' :: ((if true && !x.negative then ['+']
      else Numeral.signText x.negative) ++ x.digits) ++ rest) = _
    rw [List.cons_append, readExponent, if_pos (.inl rfl), hsign]
    simp only [splitDigits, takeWhile_digits hd hends, dropWhile_digits hd hends]
    simp [hd.ne_nil]

theorem head?_exponent (e : Option Numeral.Exponent) {rest : List Char} (hr : EndsNumber rest) :
    ∀ c ∈ ((e.map (Numeral.Exponent.text true)).getD [] ++ rest).head?,
      c.isDigit = false ∧ c ≠ '.' := by
  intro c hc
  cases e with
  | none => exact ⟨(hr c hc).1, (hr c hc).2.1⟩
  | some x =>
    cases hc
    exact ⟨rfl, by decide⟩

/-- A number is read back in front of a text that does not continue it. -/
theorem readNumber_text {n : Numeral} (h : n.IsJson) {rest : List Char} (hr : EndsNumber rest) :
    readNumber (n.text true ++ rest) = some (n, rest) := by
  obtain ⟨tail, htail⟩ : ∃ tail, tail
      = (n.exponent.map (Numeral.Exponent.text true)).getD [] ++ rest := ⟨_, rfl⟩
  have hhead : ∀ c ∈ tail.head?, c.isDigit = false ∧ c ≠ '.' :=
    htail ▸ head?_exponent n.exponent hr
  have hexponent : readExponent tail = some (n.exponent, rest) :=
    htail ▸ readExponent_text h.exponent hr
  have hends : EndsDigits tail := fun c hc => (hhead c hc).1
  have hfraction := readFraction_text h.fraction hends fun hc => (hhead '.' hc).2 rfl
  have hpoint : EndsDigits ((if n.fraction.isEmpty then [] else '.' :: n.fraction) ++ tail) := by
    cases n.fraction with
    | nil => exact hends
    | cons c ds => exact Numeral.endsDigits_point (c :: ds ++ tail)
  rw [Numeral.text, List.append_assoc, List.append_assoc, List.append_assoc, ← htail, readNumber,
    Numeral.splitMinus_signText _ h.whole]
  simp only [readWhole_digits h.whole h.noLeadingZero hpoint, hfraction, hexponent,
    Option.bind_some, Option.map_some]

end Json

end LiteralForm
