/-
Flags enums that name their bits.

Greedy covering is not complete: a constant that is taken early can leave bits over that only
constants overlapping it have.  It is complete for declarations in which each bit of a constant is
a constant as well (`EnumType.NamesBits`).

* `isSome_decompose_iff_cover`: a flags value has a decomposition exactly if the constants taken
  have all its bits;
* `exists_mem_cover_of_two_pow`: a bit that is a constant on its own is not left over;
* `decompose_complete`: so a flags value has a decomposition exactly if each of its bits is one of
  some constant.

Design notes: the constant of a lone bit is a part of the value, so the walk either takes it or has
taken something that overlaps it.  What overlaps a lone bit has this bit.  Which composites are
taken before makes no difference.
-/
import LiteralForm.Proofs.Enum.Canonical

namespace LiteralForm

/-! Powers of natural numbers are the built-in ones, whatever else is imported. -/
attribute [local instance (2000)] instPowNat

/-! ### Lone bits -/

theorem overlap_two_pow_iff {i p : Nat} : Overlap (2 ^ i) p ↔ p.testBit i = true := by
  constructor
  · rintro ⟨j, hj, hp⟩
    rw [Nat.testBit_two_pow, decide_eq_true_eq] at hj
    rw [hj]
    exact hp
  · intro hp
    exact ⟨i, Nat.testBit_two_pow_self, hp⟩

theorem within_two_pow_iff {i p : Nat} : Within (2 ^ i) p ↔ p.testBit i = true := by
  constructor
  · intro h
    exact h i Nat.testBit_two_pow_self
  · intro hp j hj
    rw [Nat.testBit_two_pow, decide_eq_true_eq] at hj
    rw [← hj]
    exact hp

namespace EnumType

/-! ### Bits of constants -/

/-- A declared constant has the bit. -/
def HasBit (e : EnumType) (i : Nat) : Prop :=
  ∃ c ∈ e.constants.entries, (e.bits c.2.val).testBit i = true

/-- Each bit of a declared constant is a declared constant on its own. -/
def NamesBits (e : EnumType) : Prop :=
  ∀ i, e.HasBit i → ∃ c ∈ e.constants.entries, e.bits c.2.val = 2 ^ i

variable {e : EnumType} {raw : Int} {i : Nat}

instance (e : EnumType) (i : Nat) : Decidable (e.HasBit i) :=
  inferInstanceAs (Decidable (∃ c ∈ e.constants.entries, _))

theorem namesBits_iff : e.NamesBits ↔ ∀ i < e.width, e.HasBit i →
    ∃ c ∈ e.constants.entries, e.bits c.2.val = 2 ^ i := by
  constructor
  · intro h i _ hi
    exact h i hi
  · rintro h i ⟨c, hc, hbit⟩
    exact h i (lt_width_of_testBit hbit) ⟨c, hc, hbit⟩

instance (e : EnumType) : Decidable e.NamesBits := decidable_of_iff _ namesBits_iff.symm

/-! ### Bits that are covered -/

/-- A flags value has a decomposition exactly if the constants taken have all its bits. -/
theorem isSome_decompose_iff_cover (hflags : e.isFlags = true) :
    (e.decompose raw).isSome = true ↔
      ∀ i, (e.bits raw).testBit i = true → ∃ c ∈ e.cover raw, (e.bits c.2.val).testBit i = true := by
  rw [Option.isSome_iff_exists]
  constructor
  · rintro ⟨names, hsome⟩ i hi
    obtain ⟨-, hleft, -⟩ := decompose_eq_some_iff.mp hsome
    rw [← uncovered_eq_zero_iff.mp hleft, testBit_union] at hi
    obtain ⟨p, hp, hbit⟩ := hi
    obtain ⟨c, hc, rfl⟩ := exists_mem_cover hp
    exact ⟨c, hc, hbit⟩
  · intro hall
    refine ⟨_, decompose_eq_some_iff.mpr ⟨hflags, uncovered_eq_zero_iff.mpr ?_, rfl⟩⟩
    refine Nat.eq_of_testBit_eq fun i => ?_
    rw [Bool.eq_iff_iff, testBit_union]
    constructor
    · rintro ⟨p, hp, hbit⟩
      exact within_of_mem_taken hp i hbit
    · intro hi
      obtain ⟨c, hc, hbit⟩ := hall i hi
      exact ⟨e.named c, hc.2, hbit⟩

/-- A bit of the value that is a constant on its own is covered, whatever else is taken. -/
theorem exists_mem_cover_of_two_pow {c : String × Int128} (hc : c ∈ e.constants.entries)
    (hpattern : e.bits c.2.val = 2 ^ i) (hi : (e.bits raw).testBit i = true) :
    ∃ d ∈ e.cover raw, (e.bits d.2.val).testBit i = true := by
  by_cases htaken : c ∈ e.cover raw
  · refine ⟨c, htaken, ?_⟩
    rw [hpattern]
    exact Nat.testBit_two_pow_self
  · have hne : e.bits c.2.val ≠ 0 := by
      rw [hpattern]
      exact (Nat.two_pow_pos i).ne'
    have hwithin : Within (e.bits c.2.val) (e.bits raw) := by
      rw [hpattern]
      exact within_two_pow_iff.mpr hi
    obtain ⟨d, hd, -, hover⟩ := (e.isCanonical_cover raw).greedy c hc hne hwithin htaken
    rw [hpattern] at hover
    exact ⟨d, hd, overlap_two_pow_iff.mp hover⟩

/-- In a declaration that names its bits, a flags value has a decomposition exactly if each of its
bits is one of some constant. -/
theorem decompose_complete (hflags : e.isFlags = true) (hnames : e.NamesBits) (raw : Int) :
    ((e.decompose raw).isSome = true ↔ ∀ i, (e.bits raw).testBit i = true → e.HasBit i) ∧
    (e.decompose raw = none ↔ ∃ i, (e.bits raw).testBit i = true ∧ ¬e.HasBit i) := by
  have hcomplete : (e.decompose raw).isSome = true ↔
      ∀ i, (e.bits raw).testBit i = true → e.HasBit i := by
    rw [isSome_decompose_iff_cover hflags]
    constructor
    · intro hcovered i hi
      obtain ⟨c, hc, hbit⟩ := hcovered i hi
      exact ⟨c, hc.1, hbit⟩
    · intro hhas i hi
      obtain ⟨c, hc, hpattern⟩ := hnames i (hhas i hi)
      exact exists_mem_cover_of_two_pow hc hpattern hi
  refine ⟨hcomplete, ?_⟩
  rw [← Option.not_isSome_iff_eq_none, hcomplete]
  constructor
  · intro hnot
    by_contra hnone
    exact hnot fun i hi => by_contra fun hhas => hnone ⟨i, hi, hhas⟩
  · rintro ⟨i, hi, hhas⟩ hall
    exact hhas (hall i hi)

/-- A flags enum over `byte` with composites that overlap and a zero.  Its constants are wider than a
byte, and the highest bit is given as a negative number. -/
def layers : EnumType where
  type := .ofName "Layers"
  underlying := .integral .byte
  isFlags := true
  constants := .ofList
    [("Empty", ⟨1024, by decide, by decide⟩), ("Ground", ⟨1025, by decide, by decide⟩),
      ("Water", ⟨1026, by decide, by decide⟩), ("Shore", ⟨1027, by decide, by decide⟩),
      ("Trees", ⟨1028, by decide, by decide⟩), ("Roads", ⟨1032, by decide, by decide⟩),
      ("Scenery", ⟨1038, by decide, by decide⟩), ("Hidden", ⟨-896, by decide, by decide⟩)]

theorem decompose_complete_layers : layers.isFlags = true ∧ layers.NamesBits ∧
    (layers.decompose 143).isSome = true ∧ layers.decompose 144 = none := by
  have hflags : layers.isFlags = true := rfl
  have hnames : layers.NamesBits := by decide +kernel
  have hall : ∀ i < layers.width, (layers.bits 143).testBit i = true → layers.HasBit i := by
    decide +kernel
  refine ⟨hflags, hnames, ?_, ?_⟩
  · refine (decompose_complete hflags hnames 143).1.mpr fun i hi => ?_
    exact hall i (lt_width_of_testBit hi) hi
  · exact (decompose_complete hflags hnames 144).2.mpr ⟨4, by decide +kernel, by decide +kernel⟩

end EnumType

end LiteralForm
