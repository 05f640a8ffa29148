/-
The representative of a value in the range of the underlying type.

Values with one pattern form a class; the normalized value is the member of the class that the
underlying type itself can hold.

* `eq_normalize_iff`: it is the only number of the range that is congruent to the value;
* `normalize_normalize`, `normalize_eq_self_iff`: the numbers of the range are those that are left
  as they are;
* `bits_eq_iff_normalize_eq`: patterns and representatives tell the same values apart;
* `normalize_canonical`: all this for a declaration over an integral type, whose patterns and
  representatives are computed by masks and shifts of words.

Design notes: that there is no second number of the range in a class is `IntKind.eq_wrap`; every
other law follows from it and from `normalize` keeping the pattern.
-/
import LiteralForm.Proofs.Word.Enum

namespace LiteralForm.EnumType

/-! Powers of natural numbers are the built-in ones, whatever else is imported. -/
attribute [local instance (2000)] instPowNat

variable {e : EnumType} {k : IntKind} (h : e.underlying = .integral k)
include h

theorem inRange_normalize (raw : Int) : k.InRange (e.normalize raw) := by
  rw [normalize_of_integral h]
  exact k.wrap_inRange raw

theorem congruent_normalize (raw : Int) : k.Congruent (e.normalize raw) raw := by
  rw [normalize_of_integral h]
  exact k.wrap_congruent raw

theorem eq_normalize_iff {raw m : Int} :
    m = e.normalize raw ↔ k.InRange m ∧ k.Congruent m raw := by
  constructor
  · rintro rfl
    exact ⟨inRange_normalize h raw, congruent_normalize h raw⟩
  · rintro ⟨hrange, hcongruent⟩
    rw [normalize_of_integral h]
    exact IntKind.eq_wrap hrange hcongruent

theorem normalize_eq_self_iff {raw : Int} : e.normalize raw = raw ↔ k.InRange raw := by
  rw [eq_comm, eq_normalize_iff h]
  exact and_iff_left (Int.ModEq.refl raw)

theorem normalize_normalize (raw : Int) : e.normalize (e.normalize raw) = e.normalize raw :=
  (normalize_eq_self_iff h).mpr (inRange_normalize h raw)

theorem bits_eq_iff_normalize_eq {a b : Int} :
    e.bits a = e.bits b ↔ e.normalize a = e.normalize b := by
  constructor
  · intro hbits
    rw [bits_eq_bits_iff_congruent h] at hbits
    rw [normalize_of_integral h, normalize_of_integral h, IntKind.wrap_congr hbits]
  · intro hnormalize
    rw [← bits_normalize, hnormalize, bits_normalize]

/-- Over an integral type of width `w`, the pattern of a value is the value modulo `2 ^ w`, and its
normalized value is the one number of the range of the type with that pattern.  Normalizing keeps
the pattern, leaves the numbers of the range and no others as they are, and does nothing the second
time; two values have one pattern exactly if they are normalized to one number.  Masking a word of
128 bits gives the pattern, and shifting it to the left end and back gives the normalized value. -/
theorem normalize_canonical :
    (∀ raw : Int, (e.bits raw : Int) = raw % (2 ^ k.width : Nat)) ∧
    (∀ raw m : Int, m = e.normalize raw ↔ k.InRange m ∧ k.Congruent m raw) ∧
    (∀ raw : Int, e.bits (e.normalize raw) = e.bits raw ∧
      e.normalize (e.normalize raw) = e.normalize raw ∧
      (e.normalize raw = raw ↔ k.InRange raw)) ∧
    (∀ a b : Int, e.bits a = e.bits b ↔ e.normalize a = e.normalize b) ∧
    ∀ raw : Int128,
      (∃ b, e.bitsWord raw.word = .ok b ∧ b.toNat = e.bits raw.val) ∧
      ∃ v, e.normalizeWord raw.word = .ok v ∧ v.toInt = e.normalize raw.val := by
  refine ⟨?_, ?_, ?_, ?_, ?_⟩
  · intro raw
    rw [natCast_bits, width_of_integral h]
  · intro raw m
    exact eq_normalize_iff h
  · intro raw
    exact ⟨e.bits_normalize raw, normalize_normalize h raw, normalize_eq_self_iff h⟩
  · intro a b
    exact bits_eq_iff_normalize_eq h
  · intro raw
    exact ⟨e.exists_bitsWord raw, e.exists_normalizeWord raw⟩

omit h

/-- A declaration over the narrowest kind with a sign. -/
def signs : EnumType := { ofType (.ofName "Sign") with underlying := .integral .sbyte }

/-- A value far above the range whose highest kept bit is the sign. -/
def farAbove : Int128 := ⟨2 ^ 100 + 200, by decide, by decide⟩

/-- The only number of the range with the bits of the value is below zero. -/
theorem normalize_canonical_farAbove :
    signs.underlying = .integral .sbyte ∧ signs.bits farAbove.val = 200 ∧
    (∀ m : Int, m = -56 ↔ IntKind.sbyte.InRange m ∧ IntKind.sbyte.Congruent m farAbove.val) ∧
    signs.bits (-56) = 200 ∧ signs.normalize (-56) = -56 ∧
    ¬IntKind.sbyte.InRange farAbove.val ∧
    (∃ b, signs.bitsWord farAbove.word = .ok b ∧ b.toNat = 200) ∧
    ∃ v, signs.normalizeWord farAbove.word = .ok v ∧ v.toInt = -56 := by
  have hbits : signs.bits farAbove.val = 200 := by decide
  have hnormalize : signs.normalize farAbove.val = -56 := by decide
  obtain ⟨-, hunique, hstable, -, hwords⟩ := normalize_canonical (e := signs) (k := .sbyte) rfl
  obtain ⟨hkept, htwice, hself⟩ := hstable farAbove.val
  have hwords := hwords farAbove
  have hunique := hunique farAbove.val
  rw [hnormalize] at hkept htwice hself hunique hwords
  rw [hbits] at hkept hwords
  exact ⟨rfl, hbits, hunique, hkept, htwice, fun h => absurd (hself.mpr h) (by decide), hwords⟩

end LiteralForm.EnumType
