/-
The order of the constants.

A declaration is a map from names to values: without aliases neither the order in which the names
are declared nor the bits of a value outside the underlying type can be seen in what is written.

* `EnumType.Reorders`: two declarations of the same names with the same patterns, in any order;
* `Reorders.candidates_eq`: both are walked in the same order;
* `Reorders.nameOf_eq`, `Reorders.decompose_eq`: so the look-up and the walk find the same names;
* `order_unobservable`: and values that are equal up to the order of the constants are written
  alike.

Design notes: both the look-up and the sort go by patterns.  Where no two constants share one, only
one constant can be found and only one list of candidates is sorted.  With aliases the order does
matter, since the first of them is taken.
-/
import LiteralForm.Proofs.Enum.Canonical
import Mathlib.Data.List.Perm.Subperm

namespace LiteralForm

namespace EnumType

/-- The declarations have the name, the integral kind and the flag in common, and they declare the
same names in any order; the values of a name may differ in bits outside the kind. -/
structure Reorders (a : EnumType) (k : IntKind) (b : EnumType) : Prop where
  type : a.type = b.type
  isFlags : a.isFlags = b.isFlags
  left : a.underlying = .integral k
  right : b.underlying = .integral k
  names : a.constants.names.Perm b.constants.names
  congruent : ∀ c ∈ a.constants.entries, ∀ d ∈ b.constants.entries, c.1 = d.1 →
    k.Congruent c.2.val d.2.val

/-- No two constants have the same pattern. -/
def AliasFree (e : EnumType) (k : IntKind) : Prop :=
  ∀ c ∈ e.constants.entries, ∀ d ∈ e.constants.entries, k.Congruent c.2.val d.2.val → c = d

instance (e : EnumType) (k : IntKind) : Decidable (e.AliasFree k) :=
  inferInstanceAs (Decidable (∀ c ∈ e.constants.entries, ∀ d ∈ e.constants.entries, _ → _))

variable {a b e : EnumType} {k : IntKind} {r s : Int} {name : String}

theorem bits_eq_of_congruent (ha : a.underlying = .integral k) (hb : b.underlying = .integral k)
    (h : k.Congruent r s) : a.bits r = b.bits s := by
  rw [(bits_eq_bits_iff_congruent ha).mpr h, ← toNat_pattern ha, toNat_pattern hb]

/-! ### The same patterns -/

theorem Reorders.symm (h : a.Reorders k b) : b.Reorders k a where
  type := h.type.symm
  isFlags := h.isFlags.symm
  left := h.right
  right := h.left
  names := h.names.symm
  congruent c hc d hd hname := (h.congruent d hd c hc hname.symm).symm

theorem Reorders.mem_map_named (h : a.Reorders k b) {p : String × Nat}
    (hp : p ∈ a.constants.entries.map a.named) : p ∈ b.constants.entries.map b.named := by
  obtain ⟨c, hc, rfl⟩ := List.mem_map.mp hp
  have hname : c.1 ∈ b.constants.names := h.names.mem_iff.mp (List.mem_map_of_mem hc)
  obtain ⟨d, hd, hdc⟩ := List.mem_map.mp hname
  have hbits : a.bits c.2.val = b.bits d.2.val :=
    bits_eq_of_congruent h.left h.right (h.congruent c hc d hd hdc.symm)
  refine List.mem_map.mpr ⟨d, hd, ?_⟩
  rw [named, named, hdc, hbits]

/-- The declarations have the same named patterns. -/
theorem Reorders.perm_named (h : a.Reorders k b) :
    (a.constants.entries.map a.named).Perm (b.constants.entries.map b.named) := by
  rw [List.perm_ext_iff_of_nodup a.nodup_map_named b.nodup_map_named]
  intro p
  exact ⟨h.mem_map_named, h.symm.mem_map_named⟩

/-! ### One constant for a pattern -/

/-- Named patterns of a declaration without aliases are told apart by the pattern. -/
theorem AliasFree.eq_of_snd_eq (hfree : e.AliasFree k) (hk : e.underlying = .integral k)
    {p q : String × Nat} (hp : p ∈ e.constants.entries.map e.named)
    (hq : q ∈ e.constants.entries.map e.named) (h : p.2 = q.2) : p = q := by
  obtain ⟨c, hc, rfl⟩ := List.mem_map.mp hp
  obtain ⟨d, hd, rfl⟩ := List.mem_map.mp hq
  rw [hfree c hc d hd ((bits_eq_bits_iff_congruent hk).mp h)]

/-- Without aliases the look-up finds a name exactly if this name has the pattern. -/
theorem AliasFree.nameOf_eq_some_iff_mem (hfree : e.AliasFree k) (hk : e.underlying = .integral k) :
    e.nameOf r = some name ↔ (name, e.bits r) ∈ e.constants.entries.map e.named := by
  rw [nameOf, Option.map_eq_some_iff]
  constructor
  · intro h
    obtain ⟨c, hfind, hname⟩ := h
    have hbits : e.bits c.2.val = e.bits r := by simpa using List.find?_some hfind
    refine List.mem_map.mpr ⟨c, List.mem_of_find?_eq_some hfind, ?_⟩
    rw [named, hname, hbits]
  · intro h
    obtain ⟨c, hc, hnamed⟩ := List.mem_map.mp h
    obtain ⟨hname, hbits⟩ := Prod.mk.inj hnamed
    obtain ⟨d, hfind⟩ : ∃ d, e.constants.entries.find? (fun d => e.bits d.2.val == e.bits r)
        = some d := Option.isSome_iff_exists.mp
      (List.find?_isSome.mpr ⟨c, hc, beq_iff_eq.mpr hbits⟩)
    have hd : e.bits d.2.val = e.bits r := by simpa using List.find?_some hfind
    have hdc : d = c := hfree d (List.mem_of_find?_eq_some hfind) c hc
      ((bits_eq_bits_iff_congruent hk).mp (hd.trans hbits.symm))
    exact ⟨d, hfind, hdc ▸ hname⟩

/-! ### What is found -/

/-- Sorted by their patterns, the constants of both declarations stand in one order. -/
theorem Reorders.candidates_eq (h : a.Reorders k b) (hfree : a.AliasFree k) :
    a.candidates = b.candidates := by
  have hpatterns : a.patterns.Perm b.patterns := h.perm_named.filter _
  have hperm : a.candidates.Perm b.candidates :=
    ((List.mergeSort_perm _ _).trans hpatterns).trans (List.mergeSort_perm _ _).symm
  refine List.Perm.eq_of_pairwise ?_ a.pairwise_candidates b.pairwise_candidates hperm
  intro p q hp hq hqp hpq
  have hmem : ∀ o ∈ a.candidates, o ∈ a.constants.entries.map a.named := fun o ho =>
    List.mem_of_mem_filter (List.mem_mergeSort.mp ho)
  exact hfree.eq_of_snd_eq h.left (hmem p hp) (hmem q (hperm.mem_iff.mpr hq))
    (Nat.le_antisymm hpq hqp)

theorem Reorders.decompose_eq (h : a.Reorders k b) (hfree : a.AliasFree k)
    (hr : k.Congruent r s) : a.decompose r = b.decompose s := by
  unfold decompose
  rw [h.isFlags, h.candidates_eq hfree, bits_eq_of_congruent h.left h.right hr]

theorem Reorders.aliasFree (h : a.Reorders k b) (hfree : a.AliasFree k) : b.AliasFree k := by
  intro c hc d hd hcd
  have hmem : ∀ f ∈ b.constants.entries, b.named f ∈ a.constants.entries.map a.named :=
    fun f hf => h.symm.mem_map_named (List.mem_map_of_mem hf)
  have hnamed : b.named c = b.named d := hfree.eq_of_snd_eq h.left (hmem c hc) (hmem d hd)
    ((bits_eq_bits_iff_congruent h.right).mpr hcd)
  exact named_injective hc hd hnamed

theorem Reorders.nameOf_eq (h : a.Reorders k b) (hfree : a.AliasFree k)
    (hr : k.Congruent r s) : a.nameOf r = b.nameOf s := by
  refine Option.ext fun name => ?_
  rw [hfree.nameOf_eq_some_iff_mem h.left, (h.aliasFree hfree).nameOf_eq_some_iff_mem h.right,
    h.perm_named.mem_iff, bits_eq_of_congruent h.left h.right hr]

/-! ### Equality up to order -/

/-- Declarations that are equal up to the order of their constants reorder each other. -/
theorem reorders_of_sameAs (h : a.sameAs b = true) (hk : a.underlying = .integral k) :
    a.Reorders k b := by
  simp only [sameAs, Constants.sameMap, Bool.and_eq_true, beq_iff_eq, List.all_eq_true] at h
  obtain ⟨⟨⟨htype, hunderlying⟩, hflags⟩, hlength, hall⟩ := h
  have hsubset : a.constants.names ⊆ b.constants.names := by
    intro name hname
    obtain ⟨c, hc, rfl⟩ := List.mem_map.mp hname
    have hget := hall c hc
    have hmem : (c.1, c.2) ∈ b.constants.entries := Entries.mem_of_find? hget
    exact List.mem_map_of_mem hmem
  have hle : b.constants.names.length ≤ a.constants.names.length := by
    rw [Constants.names, Constants.names, List.length_map, List.length_map, hlength]
  refine ⟨htype, hflags, hk, hunderlying ▸ hk, ?_, ?_⟩
  · exact (List.Nodup.subperm a.constants.distinct hsubset).perm_of_length_le hle
  · intro c hc d hd hname
    have hget := hall c hc
    rw [hname, Constants.get?_of_mem hd, Option.some.injEq] at hget
    rw [hget]
    exact Int.ModEq.refl _

/-- Without aliases, neither the order of the constants nor the bits of a value outside the
underlying type change a decomposition or a literal.  In particular, values that are equal up to
the order of their constants are written alike. -/
theorem order_unobservable (k : IntKind) :
    (∀ a b : EnumType, a.Reorders k b → a.AliasFree k →
      (∀ r s : Int, k.Congruent r s → a.decompose r = b.decompose s) ∧
      ∀ (x y : Int128) (n : Namer), k.Congruent x.val y.val →
        (EnumValue.mk a x).literal n = (EnumValue.mk b y).literal n) ∧
    ∀ v w : EnumValue, v.sameAs w = true → v.type.underlying = .integral k →
      v.type.AliasFree k → ∀ n : Namer, v.literal n = w.literal n := by
  have hliteral : ∀ (v w : EnumValue) (n : Namer), v.type.Reorders k w.type →
      v.type.AliasFree k → k.Congruent v.raw.val w.raw.val → v.literal n = w.literal n := by
    intro v w n h hfree hr
    have hnumber : v.type.normalize v.raw.val = w.type.normalize w.raw.val := by
      rw [normalize_of_integral h.left, normalize_of_integral h.right, IntKind.wrap_congr hr]
    exact EnumValue.literal_eq_of_agree h.type hnumber (h.nameOf_eq hfree hr)
      (h.decompose_eq hfree hr) n
  constructor
  · intro a b h hfree
    refine ⟨fun r s hr => h.decompose_eq hfree hr, ?_⟩
    intro x y n hr
    exact hliteral ⟨a, x⟩ ⟨b, y⟩ n h hfree hr
  · intro v w hsame hk hfree n
    rw [EnumValue.sameAs, Bool.and_eq_true, beq_iff_eq] at hsame
    refine hliteral v w n (reorders_of_sameAs hsame.1 hk) hfree ?_
    rw [hsame.2]
    exact Int.ModEq.refl _

/-- A flags enum over `byte` whose constants are wider than a byte. -/
def paints : EnumType where
  type := .ofName "Paints"
  underlying := .integral .byte
  isFlags := true
  constants := .ofList
    [("Red", ⟨4097, by decide, by decide⟩), ("Green", ⟨4098, by decide, by decide⟩),
      ("Dark", ⟨-3968, by decide, by decide⟩)]

/-- The same constants in another order and with other bits outside the byte. -/
def repainted : EnumType :=
  { paints with
    constants := .ofList
      [("Dark", ⟨4224, by decide, by decide⟩), ("Green", ⟨8194, by decide, by decide⟩),
        ("Red", ⟨8193, by decide, by decide⟩)] }

/-- The same constants, declared in reverse. -/
def paintsReversed : EnumType :=
  { paints with constants := .ofList paints.constants.entries.reverse }

theorem order_unobservable_paints :
    paints.Reorders .byte repainted ∧ paints.AliasFree .byte ∧
    IntKind.byte.Congruent 4227 (-3965) ∧
    paints.decompose 4227 = repainted.decompose (-3965) ∧
    (EnumValue.mk paints ⟨4227, by decide, by decide⟩).literal (CSharp.namer false)
      = (EnumValue.mk repainted ⟨-3965, by decide, by decide⟩).literal (CSharp.namer false) ∧
    (EnumValue.mk paints ⟨4227, by decide, by decide⟩).sameAs
      ⟨paintsReversed, ⟨4227, by decide, by decide⟩⟩ = true ∧
    (EnumValue.mk paints ⟨4227, by decide, by decide⟩).literal (CSharp.namer false)
      = (EnumValue.mk paintsReversed ⟨4227, by decide, by decide⟩).literal (CSharp.namer false) := by
  have hreorders : paints.Reorders .byte repainted :=
    ⟨rfl, rfl, rfl, rfl, by decide +kernel, by decide +kernel⟩
  have hfree : paints.AliasFree .byte := by decide +kernel
  have hcongruent : IntKind.byte.Congruent 4227 (-3965) := by decide
  have hsame : (EnumValue.mk paints ⟨4227, by decide, by decide⟩).sameAs
      ⟨paintsReversed, ⟨4227, by decide, by decide⟩⟩ = true := by decide +kernel
  obtain ⟨hpair, hequal⟩ := order_unobservable .byte
  obtain ⟨hdecompose, hliteral⟩ := hpair paints repainted hreorders hfree
  exact ⟨hreorders, hfree, hcongruent, hdecompose _ _ hcongruent, hliteral _ _ _ hcongruent,
    hsame, hequal _ _ hsame rfl hfree _⟩

end EnumType

end LiteralForm
