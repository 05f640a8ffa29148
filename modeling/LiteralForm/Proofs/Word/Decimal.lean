/-
Decimal numbers as words.

A mantissa is read into a word of 128 bits with a sign, digit by digit, and the lengths that cut the
text of a number are words of 64 bits.

* `pushDigit_ofNat`: behind a mantissa there is room for one more digit, whichever it is;
* `readMantissaWord_ofNat`: so no string of digits, however long, makes the word overflow before
  the reader notices that the mantissa is too large;
* `parseWord_eq`, `textWord_eq`: on words, reading and writing meet no fault and give
  `Decimal.parse` and `Decimal.text`.
-/
import LiteralForm.Proofs.Decimal.Text
import LiteralForm.Proofs.Word.Checked

namespace LiteralForm.Decimal

/-! Powers of natural numbers are the built-in ones, whatever else is imported. -/
attribute [local instance (2000)] instPowNat

open Word (Checked)

/-! ### Reading -/

/-- The number in the word with one more digit, given by its byte. -/
def pushDigit (n : BitVec 128) (digit : BitVec 8) : Checked (BitVec 128) := do
  let tens ← Word.mulSigned n (BitVec.ofNat 128 10)
  let ones ← Word.sub digit (BitVec.ofNat 8 '0'.toNat)
  Word.addSigned tens (ones.setWidth 128)

/-- Reads digits after the number in the word, as long as the number fits a mantissa. -/
def readMantissaWord (n : BitVec 128) : List Char → Checked (Option (BitVec 128))
  | [] => .ok (some n)
  | c :: s => do
    let m ← pushDigit n (BitVec.ofNat 8 c.toNat)
    if m.toInt ≤ maxMantissa then readMantissaWord m s else .ok none

/-- The number in the word, or its negative. -/
def signedWord (negative : Bool) (m : BitVec 128) : Checked (BitVec 128) :=
  if negative then Word.negSigned m else .ok m

/-- Reads a decimal number. -/
def parseWord (s : String) : Checked (Except DecimalError Decimal) :=
  let signed := Numeral.splitSign s.toList
  let parts := splitPoint signed.2
  let digits := parts.1 ++ parts.2
  if digits.isEmpty || !digits.all Char.isDigit then .ok (.error (.invalid s))
  else if maxScale < parts.2.length then .ok (.error (.scaleOutOfRange parts.2.length))
  else do
    -- All characters are digits by now, so each is one byte.
    let mantissa? ← readMantissaWord 0 digits
    mantissa?.elim (.ok (.error .overflow)) fun m => do
      let mantissa ← signedWord signed.1 m
      -- The scale is kept in a byte.
      .ok (ofParts mantissa.toInt (BitVec.ofNat 8 parts.2.length).toNat)

/-- A mantissa with one more digit is a small number of a wide word. -/
theorem two_mul_lt {n : Nat} (hn : n ≤ maxMantissa * 10 + 9) : 2 * n < 2 ^ 128 := by
  have hmax : 2 * (maxMantissa * 10 + 9) < 2 ^ 128 := by decide
  omega

/-- Behind a mantissa there is room for one more digit. -/
theorem pushDigit_ofNat {n : Nat} (hn : n ≤ maxMantissa) {c : Char} (hc : c.isDigit = true) :
    pushDigit (BitVec.ofNat 128 n) (BitVec.ofNat 8 c.toNat)
      = .ok (BitVec.ofNat 128 (n * 10 + (c.toNat - '0'.toNat))) := by
  have hlow : '0'.toNat ≤ c.toNat := (Char.isDigit_iff_toNat.mp hc).1
  have hhigh : c.toNat ≤ 57 := (Char.isDigit_iff_toNat.mp hc).2
  have hdigit := toNat_sub_lt_ten hc
  have hwide : (BitVec.ofNat 8 (c.toNat - '0'.toNat)).setWidth 128
      = BitVec.ofNat 128 (c.toNat - '0'.toNat) := by
    refine BitVec.eq_of_toNat_eq ?_
    rw [BitVec.toNat_setWidth, Word.toNat_ofNat_of_lt (by omega), BitVec.toNat_ofNat]
  rw [pushDigit,
    Word.mulSigned_ofNat (two_mul_lt (by omega)) (by decide) (two_mul_lt (by omega)), Word.ok_bind,
    Word.sub_ofNat hlow (by omega), Word.ok_bind, hwide,
    Word.addSigned_ofNat (two_mul_lt (by omega))]

/-- The word never holds more than a mantissa when the next digit is read. -/
theorem readMantissaWord_ofNat {ds : List Char} (hd : ∀ c ∈ ds, c.isDigit = true) {n : Nat}
    (hn : n ≤ maxMantissa) :
    readMantissaWord (BitVec.ofNat 128 n) ds
      = .ok ((readMantissa n ds).map (BitVec.ofNat 128)) := by
  induction ds generalizing n with
  | nil => rfl
  | cons c ds ih =>
    rw [List.forall_mem_cons] at hd
    have hdigit := toNat_sub_lt_ten hd.1
    rw [readMantissaWord, pushDigit_ofNat hn hd.1, Word.ok_bind,
      Word.toInt_ofNat_of_lt (two_mul_lt (by omega)), readMantissa]
    by_cases hle : n * 10 + (c.toNat - '0'.toNat) ≤ maxMantissa
    · rw [if_pos hle, if_pos (Int.ofNat_le.mpr hle), ih hd.2 hle]
    · rw [if_neg hle, if_neg (fun h => hle (Int.ofNat_le.mp h))]
      rfl

theorem readMantissa_le {ds : List Char} {n m : Nat} (hn : n ≤ maxMantissa)
    (h : readMantissa n ds = some m) : m ≤ maxMantissa := by
  induction ds generalizing n with
  | nil =>
    cases h
    exact hn
  | cons c ds ih =>
    rw [readMantissa] at h
    split at h
    · next hle => exact ih hle h
    · cases h

/-- A mantissa has a negative, since the least number of a wide word is none. -/
theorem exists_signedWord (negative : Bool) {m : Nat} (hm : m ≤ maxMantissa) :
    ∃ r, signedWord negative (BitVec.ofNat 128 m) = .ok r ∧
      r.toInt = if negative then -(m : Int) else m := by
  have hvalue : (BitVec.ofNat 128 m).toInt = m :=
    Word.toInt_ofNat_of_lt (two_mul_lt (by omega))
  cases negative with
  | false => exact ⟨BitVec.ofNat 128 m, rfl, hvalue⟩
  | true =>
    have hmax : (maxMantissa : Int) < 2 ^ (128 - 1) := by decide
    have hneg : (BitVec.ofInt 128 (-m)).toInt = -m :=
      BitVec.toInt_ofInt_eq_self (by decide) (by omega) (by omega)
    exact ⟨BitVec.ofInt 128 (-m), Word.negSigned_eq_ok_iff.mpr (by rw [hneg, hvalue]), hneg⟩

theorem parseWord_eq (s : String) : parseWord s = .ok (parse s) := by
  rcases hsign : Numeral.splitSign s.toList with ⟨negative, body⟩
  rcases hpoint : splitPoint body with ⟨whole, fraction⟩
  simp only [parse, parseWord, hsign, hpoint]
  by_cases hbad : ((whole ++ fraction).isEmpty || !(whole ++ fraction).all Char.isDigit) = true
  · rw [if_pos hbad, if_pos hbad]
  · rw [if_neg hbad, if_neg hbad]
    by_cases hlong : maxScale < fraction.length
    · rw [if_pos hlong, if_pos hlong]
    · rw [Bool.not_eq_true, Bool.or_eq_false_iff, Bool.not_eq_false', List.all_eq_true] at hbad
      have hscale : (BitVec.ofNat 8 fraction.length).toNat = fraction.length := by
        have hmax : maxScale < 2 ^ 8 := by decide
        exact Word.toNat_ofNat_of_lt (by omega)
      have hzero : (0 : BitVec 128) = BitVec.ofNat 128 0 := rfl
      rw [if_neg hlong, if_neg hlong, hscale, hzero,
        readMantissaWord_ofNat hbad.2 (Nat.zero_le maxMantissa), Word.ok_bind]
      cases hread : readMantissa 0 (whole ++ fraction) with
      | none => rfl
      | some m =>
        have hm : m ≤ maxMantissa := readMantissa_le (Nat.zero_le maxMantissa) hread
        obtain ⟨r, hr, hvalue⟩ := exists_signedWord negative hm
        simp only [Option.map_some, Option.elim_some, hr, Word.ok_bind, hvalue]

/-! ### Writing -/

/-- The digits of a number, with a point before as many of them as the word says. -/
def unsignedTextWord (n : Nat) (scale : BitVec 64) : Checked (List Char) :=
  let digits := Nat.toDigits 10 n
  if scale = 0 then .ok digits
  else do
    let width ← Word.add scale (BitVec.ofNat 64 1)
    let padded := digits.leftpad width.toNat '0'
    let whole ← Word.sub (BitVec.ofNat 64 padded.length) scale
    let parts ← Word.splitAt padded whole.toNat
    .ok (parts.1 ++ '.' :: parts.2)

/-- A number with its sign, a point and all its fractional digits. -/
def textWord (d : Decimal) : Checked String := do
  let unsigned ← unsignedTextWord d.mantissa.natAbs (BitVec.ofNat 64 d.scale)
  .ok (String.ofList (if d.isNegative then '-' :: unsigned else unsigned))

theorem unsignedTextWord_ofNat {n scale : Nat} (hn : n ≤ maxMantissa) (hscale : scale ≤ maxScale) :
    unsignedTextWord n (BitVec.ofNat 64 scale) = .ok (unsignedText n scale) := by
  have hmax : maxScale + 1 < 2 ^ 64 := by decide
  have hpos : 0 < (Nat.toDigits 10 n).length := Nat.length_toDigits_pos
  have hshort : (Nat.toDigits 10 n).length ≤ 29 := by
    have hlt : maxMantissa < 10 ^ 29 := by decide
    exact (Nat.length_toDigits_le_iff (by decide) (by decide)).mpr (by omega)
  rw [unsignedTextWord, unsignedText]
  by_cases hzero : scale = 0
  · subst hzero
    have hpad : (Nat.toDigits 10 n).leftpad (0 + 1) '0' = Nat.toDigits 10 n := by
      rw [List.leftpad, Nat.sub_eq_zero_of_le hpos, List.replicate_zero, List.nil_append]
    rw [hpad]
    rfl
  · have hword : BitVec.ofNat 64 scale ≠ 0 := by
      intro h
      have hvalue : (BitVec.ofNat 64 scale).toNat = scale := Word.toNat_ofNat_of_lt (by omega)
      rw [h] at hvalue
      exact hzero hvalue.symm
    have hlen := length_leftpad (scale + 1) (Nat.toDigits 10 n)
    rw [if_neg hword, if_neg hzero, Word.add_ofNat (by omega), Word.ok_bind,
      Word.toNat_ofNat_of_lt (by omega)]
    generalize (Nat.toDigits 10 n).leftpad (scale + 1) '0' = padded at hlen ⊢
    dsimp only
    rw [Word.sub_ofNat (by omega) (by omega), Word.ok_bind, Word.toNat_ofNat_of_lt (by omega),
      Word.splitAt_of_le (Nat.sub_le _ _), Word.ok_bind]

theorem textWord_eq (d : Decimal) : textWord d = .ok d.text := by
  rw [textWord, unsignedTextWord_ofNat d.mantissa_le d.scale_le, Word.ok_bind, text]

end LiteralForm.Decimal
