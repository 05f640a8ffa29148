/-
Enum values as words.

A value is held in a word of 128 bits, wider than every underlying type.  Its pattern is what a
mask leaves of that word; its representative in a range with a sign comes from shifting the pattern
to the left end of the word and back.

* `toNat_and_mask`, `toInt_sshiftRight_shiftLeft`: what masking and shifting do to the value of a
  word;
* `exists_bitsWord`, `exists_normalizeWord`: on words, both computations meet no fault and give
  `EnumType.bits` and `EnumType.normalize`.
-/
import LiteralForm.Proofs.Enum.Bits
import LiteralForm.Proofs.Word.Checked

namespace LiteralForm

/-! Powers of natural numbers are the built-in ones, whatever else is imported. -/
attribute [local instance (2000)] instPowNat

open Word (Checked)

/-! ### Masks and shifts -/

namespace Word

variable {n w s : Nat} (h : w + s = n)
include h

/-- A mask of `w` ones keeps the remainder by `2 ^ w`. -/
theorem toNat_and_mask (x : BitVec n) :
    (x &&& BitVec.allOnes n >>> s).toNat = x.toNat % 2 ^ w := by
  have hmask : (2 ^ n - 1) >>> s = 2 ^ w - 1 := by
    refine Nat.eq_of_testBit_eq fun i => ?_
    rw [Nat.testBit_shiftRight, Nat.testBit_two_pow_sub_one, Nat.testBit_two_pow_sub_one,
      decide_eq_decide]
    omega
  rw [BitVec.toNat_and, BitVec.toNat_ushiftRight, BitVec.toNat_allOnes, hmask,
    Nat.and_two_pow_sub_one_eq_mod]

/-- Shifting to the left end and back copies the sign of the lowest `w` places to those above. -/
theorem sshiftRight_shiftLeft (hw : 0 < w) (x : BitVec n) :
    (x <<< s).sshiftRight s = (x.setWidth w).signExtend n := by
  ext i hi
  rw [BitVec.getElem_sshiftRight, BitVec.getElem_signExtend]
  by_cases hlow : i < w
  · have hin : s + i < n := by omega
    have hnot : ¬s + i < s := by omega
    rw [dif_pos hin, dif_pos hlow, BitVec.getElem_shiftLeft, BitVec.getElem_setWidth,
      ← BitVec.getLsbD_eq_getElem]
    simp [hnot]
  · -- Both sides are the highest of the places that are kept.
    have hout : ¬s + i < n := by omega
    have htop : n - 1 < n := by omega
    have hnot : ¬n - 1 < s := by omega
    have hkept : w - 1 < w := by omega
    have hlast : n - 1 - s = w - 1 := by omega
    rw [dif_neg hout, dif_neg hlow, BitVec.msb_eq_getLsbD_last, BitVec.msb_eq_getLsbD_last,
      BitVec.getLsbD_shiftLeft, BitVec.getLsbD_setWidth, hlast]
    simp [htop, hnot, hkept]

/-- So it reads those places as a number with a sign. -/
theorem toInt_sshiftRight_shiftLeft (hw : 0 < w) (x : BitVec n) :
    ((x <<< s).sshiftRight s).toInt = Int.bmod x.toNat (2 ^ w) := by
  rw [sshiftRight_shiftLeft h hw, BitVec.toInt_signExtend_of_le (by omega), BitVec.toInt_setWidth]

end Word

/-! ### The words of an enum value -/

/-- A wide integer as a word. -/
def Int128.word (n : Int128) : BitVec 128 := BitVec.ofInt 128 n.val

/-- The number of places of a wide word that the kind does not use. -/
def IntKind.sparePlaces (k : IntKind) : Checked (BitVec 32) :=
  Word.sub (BitVec.ofNat 32 128) (BitVec.ofNat 32 k.width)

namespace EnumType

/-- The pattern of a value, by a mask. -/
def bitsWord (e : EnumType) (raw : BitVec 128) : Checked (BitVec 128) :=
  match e.underlying.intKind? with
  | some k => do
    let spare ← k.sparePlaces
    let mask ← Word.shiftRight (BitVec.allOnes 128) spare.toNat
    .ok (raw &&& mask)
  | none => .ok raw

/-- The value in the range of the underlying type, by shifts of its pattern. -/
def normalizeWord (e : EnumType) (raw : BitVec 128) : Checked (BitVec 128) := do
  let bits ← e.bitsWord raw
  match e.underlying.intKind? with
  | some k =>
    if k.isSigned then do
      let spare ← k.sparePlaces
      let high ← Word.shiftLeft bits spare.toNat
      Word.shiftRightSigned high spare.toNat
    else .ok bits
  | none => .ok bits

end EnumType

/-- Every kind uses some places of a wide word and leaves some, so that a shift by the places that
are left stays inside the word. -/
theorem IntKind.exists_sparePlaces (k : IntKind) : ∃ spare, k.sparePlaces = .ok spare ∧
    k.width + spare.toNat = 128 ∧ 0 < k.width ∧ 0 < spare.toNat ∧ spare.toNat < 128 := by
  have hpos : 0 < k.width := by cases k <;> decide
  have hle : k.width ≤ 64 := by cases k <;> decide
  refine ⟨BitVec.ofNat 32 (128 - k.width), Word.sub_ofNat (by omega) (by decide), ?_⟩
  rw [Word.toNat_ofNat_of_lt (by omega)]
  omega

namespace EnumType

/-- On words, the pattern of a value is found without a fault. -/
theorem exists_bitsWord (e : EnumType) (raw : Int128) :
    ∃ b, e.bitsWord raw.word = .ok b ∧ b.toNat = e.bits raw.val := by
  cases hk : e.underlying.intKind? with
  | none =>
    refine ⟨raw.word, by rw [bitsWord, hk], ?_⟩
    rw [bits, width, hk, Int128.word, BitVec.toNat_ofInt]
    rfl
  | some k =>
    obtain ⟨spare, hspare, hsum, -, -, hlt⟩ := k.exists_sparePlaces
    refine ⟨raw.word &&& BitVec.allOnes 128 >>> spare.toNat, ?_, ?_⟩
    · simp only [bitsWord, hk, hspare, Word.ok_bind, Word.shiftRight, Word.shifted_of_lt hlt]
    · -- The wide word keeps the value modulo a multiple of the modulus of the pattern.
      have hdvd : ((2 ^ k.width : Nat) : Int) ∣ (2 ^ 128 : Nat) :=
        Int.natCast_dvd_natCast.mpr (Nat.pow_dvd_pow 2 (by omega))
      have hword : (raw.word.toNat : Int) = raw.val % (2 ^ 128 : Nat) := by
        rw [Int128.word, BitVec.toNat_ofInt]
        exact Int.toNat_of_nonneg (Int.emod_nonneg _ (by decide))
      rw [Word.toNat_and_mask hsum, ← Int.natCast_inj, natCast_bits, Int.natCast_emod, hword,
        Int.emod_emod_of_dvd raw.val hdvd, width, hk]

/-- On words, the value in the range of the underlying type is found without a fault. -/
theorem exists_normalizeWord (e : EnumType) (raw : Int128) :
    ∃ v, e.normalizeWord raw.word = .ok v ∧ v.toInt = e.normalize raw.val := by
  obtain ⟨b, hb, hbits⟩ := e.exists_bitsWord raw
  cases hk : e.underlying.intKind? with
  | none =>
    have hraw : b = raw.word := by
      simpa [bitsWord, hk, eq_comm] using hb
    refine ⟨b, by simp only [normalizeWord, hb, Word.ok_bind, hk], ?_⟩
    rw [hraw, normalize, hk, Int128.word, BitVec.toInt_ofInt]
    rfl
  | some k =>
    obtain ⟨spare, hspare, hsum, hpos, hroom, hlt⟩ := k.exists_sparePlaces
    have hwidth : e.width = k.width := by rw [width, hk]
    have hmod : (b.toNat : Int) = raw.val % (2 ^ k.width : Nat) := by
      rw [hbits, natCast_bits, hwidth]
    have hnormalize : e.normalize raw.val = k.wrap raw.val := by rw [normalize, hk]
    rw [hnormalize, IntKind.wrap]
    by_cases hsigned : k.isSigned = true
    · refine ⟨(b <<< spare.toNat).sshiftRight spare.toNat, ?_, ?_⟩
      · simp only [normalizeWord, hb, Word.ok_bind, hk, hsigned, if_true, hspare, Word.shiftLeft,
          Word.shifted_of_lt hlt, Word.shiftRightSigned]
      · rw [Word.toInt_sshiftRight_shiftLeft hsum hpos, hmod, Int.emod_bmod, if_pos hsigned]
    · refine ⟨b, by simp only [normalizeWord, hb, Word.ok_bind, hk, if_neg hsigned], ?_⟩
      -- The pattern leaves the highest place of the wide word free, which would be its sign.
      have hlow : b.toNat < 2 ^ k.width := by
        rw [hbits, ← hwidth]
        exact e.bits_lt raw.val
      have hhalf : 2 ^ (k.width + 1) ≤ 2 ^ 128 := Nat.pow_le_pow_right (by decide) (by omega)
      have hfree : 2 * b.toNat < 2 ^ 128 := by
        rw [Nat.pow_succ] at hhalf
        omega
      rw [BitVec.toInt_eq_toNat_of_lt hfree, hmod, if_neg hsigned]

end EnumType

end LiteralForm
