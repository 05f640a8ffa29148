/-
Escapes by number as words.

The number of an escape is gathered digit by digit in a word of 32 bits without a sign.

* `exists_readHexWord`: up to eight hexadecimal digits fit the word, and the digits that are read
  and their number are those of the longest run;
* `readEscapeWord_eq`, `unescapeWordFrom_eq`: on words, reading an escape and reading a body meet no
  fault and give `Text.readEscape` and `Text.unescape`.

Design notes: what keeps the word from overflowing is that a number of `len` digits is below
`16 ^ len`, together with the greatest number of digits of an escape.
-/
import LiteralForm.Proofs.Text.Grammar
import LiteralForm.Proofs.Word.Checked

namespace LiteralForm.Text

/-! Powers of natural numbers are the built-in ones, whatever else is imported. -/
attribute [local instance (2000)] instPowNat

open Word (Checked)

/-! ### Hexadecimal digits -/

/-- The number in the word with one more hexadecimal digit. -/
def pushHexDigit (code : BitVec 32) (digit : Nat) : Checked (BitVec 32) := do
  let high ← Word.mul code (BitVec.ofNat 32 16)
  Word.add high (BitVec.ofNat 32 digit)

/-- Reads at most `left` hexadecimal digits behind `len` digits with the number `code`. -/
def readHexWord (code : BitVec 32) (len : BitVec 64) :
    Nat → List Char → Checked (BitVec 32 × BitVec 64)
  | left + 1, c :: s =>
    (hexDigit? c).elim (.ok (code, len)) fun digit => do
      let code ← pushHexDigit code digit
      let len ← Word.add len (BitVec.ofNat 64 1)
      readHexWord code len left s
  | _, _ => .ok (code, len)

theorem hexDigit?_lt {c : Char} {digit : Nat} (h : hexDigit? c = some digit) : digit < 16 := by
  rcases isHexDigit_iff.mpr h with h | h <;> exact (List.getElem?_eq_some_iff.mp h).1

/-- A number of fewer than eight digits has room for one more. -/
theorem pushHexDigit_ofNat {code len digit : Nat} (hcode : code < 16 ^ len) (hlen : len < 8)
    (hdigit : digit < 16) :
    pushHexDigit (BitVec.ofNat 32 code) digit = .ok (BitVec.ofNat 32 (code * 16 + digit)) ∧
      code * 16 + digit < 16 ^ (len + 1) := by
  have hpow : 16 ^ len ≤ 16 ^ 7 := Nat.pow_le_pow_right (by decide) (by omega)
  constructor
  · rw [pushHexDigit, Word.mul_ofNat (by omega) (by decide) (by omega), Word.ok_bind,
      Word.add_ofNat (by omega)]
  · rw [Nat.pow_succ]
    omega

/-- The hexadecimal digits in front of the first other character, `most` of them at most. -/
def hexRun (most : Nat) (s : List Char) : List Char :=
  (s.take most).takeWhile fun c => (hexDigit? c).isSome

/-- Words hold the number and the count of up to eight digits. -/
theorem toNat_words {code len : Nat} (hcode : code < 16 ^ len) (hlen : len ≤ 8) :
    (BitVec.ofNat 32 code).toNat = code ∧ (BitVec.ofNat 64 len).toNat = len := by
  have hpow : 16 ^ len ≤ 16 ^ 8 := Nat.pow_le_pow_right (by decide) hlen
  exact ⟨Word.toNat_ofNat_of_lt (by omega), Word.toNat_ofNat_of_lt (by omega)⟩

/-- Reading goes to the end of the run and finds its number, behind the digits it began with. -/
theorem exists_readHexWord {code len left : Nat} (hcode : code < 16 ^ len) (hlen : len + left ≤ 8)
    (s : List Char) : ∃ number count,
    readHexWord (BitVec.ofNat 32 code) (BitVec.ofNat 64 len) left s = .ok (number, count) ∧
      number.toNat = (hexRun left s).foldl (fun n c => n * 16 + (hexDigit? c).getD 0) code ∧
      count.toNat = len + (hexRun left s).length := by
  have hend := toNat_words hcode (by omega)
  induction left generalizing code len s with
  | zero => exact ⟨_, _, by rw [readHexWord]; nofun, hend⟩
  | succ left ih =>
    cases s with
    | nil => exact ⟨_, _, by rw [readHexWord]; nofun, hend⟩
    | cons c s =>
      rw [readHexWord]
      cases hdigit : hexDigit? c with
      | none =>
        have hrun : hexRun (left + 1) (c :: s) = [] := by simp [hexRun, hdigit]
        rw [hrun]
        exact ⟨_, _, rfl, hend⟩
      | some digit =>
        have hrun : hexRun (left + 1) (c :: s) = c :: hexRun left s := by simp [hexRun, hdigit]
        obtain ⟨hpush, hnext⟩ := pushHexDigit_ofNat hcode (by omega) (hexDigit?_lt hdigit)
        obtain ⟨number, count, hread, hnumber, hcount⟩ :=
          ih hnext (by omega) s (toNat_words hnext (by omega))
        refine ⟨number, count, ?_, ?_, ?_⟩
        · rw [Option.elim_some, hpush, Word.ok_bind, Word.add_ofNat (by omega), Word.ok_bind, hread]
        · rw [hnumber, hrun, List.foldl_cons, hdigit, Option.getD_some]
        · rw [hcount, hrun, List.length_cons]
          omega

/-- A ninth digit would not fit the word. -/
example : readHexWord 0 0 9 "100000000".toList = .error .overflow := by decide

/-! ### Escapes and bodies -/

/-- Reads the escape that begins with `kind` and goes on in `rest`. -/
def readEscapeWord (offset : Nat) (kind : Char) (rest : List Char) :
    Checked (Except UnescapeError (Char × Nat)) :=
  match simpleEscape? kind with
  | some c => .ok (.ok (c, 0))
  | none =>
    match digitBounds? kind with
    | none => .ok (.error (.unknownEscape kind))
    | some (least, most) => do
      let number ← readHexWord (BitVec.ofNat 32 0) (BitVec.ofNat 64 0) most rest
      if number.2.toNat < least then .ok (.error (.missingHexDigits kind offset))
      else
        match charOfNumber? number.1.toNat with
        | some c => .ok (.ok (c, number.2.toNat))
        | none => .ok (.error (.invalidCodePoint offset))

/-- Reads a body that begins at the given offset in bytes. -/
def unescapeWordFrom (offset : Nat) (body : List Char) :
    Checked (Except UnescapeError (List Char)) :=
  match body with
  | [] => .ok (.ok [])
  | c :: rest =>
    if c ≠ '\\' then do
      let chars ← unescapeWordFrom (offset + c.utf8Size) rest
      .ok (chars.map (c :: ·))
    else
      match rest with
      | [] => .ok (.error .dangling)
      | kind :: rest => do
        let escape ← readEscapeWord offset kind rest
        match escape with
        | .error e => .ok (.error e)
        | .ok (d, taken) => do
          let chars ← unescapeWordFrom (offset + 2 + taken) (rest.drop taken)
          .ok (chars.map (d :: ·))
termination_by body.length

theorem readEscapeWord_eq (offset : Nat) (kind : Char) (rest : List Char) :
    readEscapeWord offset kind rest = .ok (readEscape offset kind rest) := by
  unfold readEscapeWord readEscape
  cases simpleEscape? kind with
  | some c => rfl
  | none =>
    cases hbounds : digitBounds? kind with
    | none => rfl
    | some bounds =>
      obtain ⟨least, most⟩ := bounds
      dsimp only
      have hmost : most ≤ 8 := by
        have hall : ∀ p ∈ numberEscapes, p.2.2 ≤ 8 := by decide
        exact hall (kind, least, most) (mem_numberEscapes_iff.mpr hbounds)
      obtain ⟨number, count, hread, hnumber, hcount⟩ :=
        @exists_readHexWord 0 0 most (by decide) (by omega) rest
      rw [Nat.zero_add, hexRun] at hcount
      have hcode : number.toNat = hexNumber (hexRun most rest) := hnumber
      rw [hexRun] at hcode
      rw [hread, Word.ok_bind]
      dsimp only
      rw [hcount, hcode]
      generalize (rest.take most).takeWhile (fun c => (hexDigit? c).isSome) = digits
      split
      · rfl
      · cases charOfNumber? (hexNumber digits) <;> rfl

theorem unescapeWordFrom_eq (offset : Nat) (body : List Char) :
    unescapeWordFrom offset body = .ok (unescapeFrom offset body) := by
  match body with
  | [] => rw [unescapeWordFrom, unescapeFrom_nil]
  | c :: rest =>
    by_cases hc : c = '\\'
    · subst hc
      match rest with
      | [] =>
        rw [unescapeFrom_lone, unescapeWordFrom.eq_def]
        dsimp only
        rw [if_neg (by simp)]
      | kind :: rest =>
        rw [unescapeFrom_escaped, unescapeWordFrom.eq_def]
        dsimp only
        rw [if_neg (by simp), readEscapeWord_eq, Word.ok_bind]
        cases readEscape offset kind rest with
        | error e => rfl
        | ok read =>
          obtain ⟨d, taken⟩ := read
          dsimp only [Except.bind]
          rw [unescapeWordFrom_eq, Word.ok_bind]
    · rw [unescapeFrom_cons hc, unescapeWordFrom.eq_def]
      dsimp only
      rw [if_pos hc, unescapeWordFrom_eq, Word.ok_bind]
termination_by body.length
decreasing_by
  · simp only [List.length_drop, List.length_cons]
    omega
  · simp

/-- The characters that the body of a quoted literal denotes. -/
def unescapeWord (body : List Char) : Checked (Except UnescapeError (List Char)) :=
  unescapeWordFrom 0 body

end LiteralForm.Text
