/-
The look-up of a name and the decomposition into flags.

A value with a declared constant is found twice: by the look-up, which takes the first constant in
order of declaration, and by the greedy walk, which takes it as the only part.

* `isCanonical_singleton`: the constant that the look-up finds is a canonical set on its own;
* `nameOf_of_decompose_singleton`, `decompose_of_nameOf`: both ways name the same constant;
* `lookup_agrees_with_decompose`: so the look-up in front of the decomposition matters to a flags
  enum for zero alone, and a decomposition that is asked for never has a single name.

Design notes: no part of a value is greater than the value, and the constant with the whole pattern
overlaps every other part.  So there is nothing to say about the order of the walk: the canonical
set of a named value is known, and there is only one.
-/
import LiteralForm.Proofs.Enum.Canonical

namespace LiteralForm

/-! Powers of natural numbers are the built-in ones, whatever else is imported. -/
attribute [local instance (2000)] instPowNat

namespace EnumType

variable {e : EnumType} {raw : Int} {name : String}

/-! ### One constant with the whole pattern -/

theorem nameOf_eq_some_iff_find? : e.nameOf raw = some name ↔ ∃ value,
    e.constants.entries.find? (fun d => e.bits d.2.val == e.bits raw) = some (name, value) := by
  rw [nameOf, Option.map_eq_some_iff]
  constructor
  · rintro ⟨⟨n, value⟩, hfind, rfl⟩
    exact ⟨value, hfind⟩
  · rintro ⟨value, hfind⟩
    exact ⟨(name, value), hfind, rfl⟩

/-- The first constant with the pattern of a value is a canonical set of parts. -/
theorem isCanonical_singleton {c : String × Int128}
    (hfind : e.constants.entries.find? (fun d => e.bits d.2.val == e.bits raw) = some c)
    (hne : e.bits raw ≠ 0) : e.IsCanonical raw {c} := by
  have hbits : e.bits c.2.val = e.bits raw := by simpa using List.find?_some hfind
  constructor
  case declared =>
    rintro d rfl
    exact List.mem_of_find?_eq_some hfind
  case nonzero =>
    rintro d rfl
    rw [hbits]
    exact hne
  case within =>
    rintro d rfl i hi
    rw [← hbits]
    exact hi
  case first =>
    rintro d rfl
    rw [hbits]
    exact hfind
  case disjoint =>
    rintro d rfl f rfl hdf
    exact absurd rfl hdf
  case greedy =>
    intro d _ hd hwithin _
    refine ⟨c, rfl, ?_⟩
    rw [hbits]
    -- Whatever bit the part has is one of the value.
    obtain ⟨i, hi⟩ := Nat.exists_testBit_of_ne_zero hd
    exact ⟨hwithin.le, i, hi, hwithin i hi⟩

theorem taken_eq_singleton {c : String × Int128} (h : e.cover raw = {c}) :
    taken (e.bits raw) e.candidates = [e.named c] := by
  have hcover : e.cover raw = {d | d ∈ [c]} := by
    rw [h]
    exact Set.ext fun d => List.mem_singleton.symm
  exact taken_eq_map hcover (List.pairwise_singleton _ c)

/-! ### The look-up and the decomposition -/

theorem decompose_of_nameOf (hflags : e.isFlags = true) (hne : e.bits raw ≠ 0)
    (h : e.nameOf raw = some name) : e.decompose raw = some [name] := by
  obtain ⟨value, hfind⟩ := nameOf_eq_some_iff_find?.mp h
  have hbits : e.bits value.val = e.bits raw := by simpa using List.find?_some hfind
  have hcover : e.cover raw = {(name, value)} :=
    (e.isCanonical_cover raw).unique (isCanonical_singleton hfind hne)
  have htaken := taken_eq_singleton hcover
  refine decompose_eq_some_iff.mpr ⟨hflags, uncovered_eq_zero_iff.mpr ?_, ?_⟩
  · rw [htaken, union_cons, union_nil, Nat.or_zero]
    exact hbits
  · rw [htaken]
    rfl

/-- A single part has the whole pattern, and it is the first constant that does. -/
theorem nameOf_of_decompose_singleton (h : e.decompose raw = some [name]) :
    e.nameOf raw = some name := by
  obtain ⟨-, hleft, hnames⟩ := decompose_eq_some_iff.mp h
  obtain ⟨p, hp, hname⟩ : ∃ p, taken (e.bits raw) e.candidates = [p] ∧ p.1 = name := by
    rw [eq_comm, List.reverse_eq_iff, List.reverse_singleton, List.map_eq_singleton_iff] at hnames
    exact hnames
  obtain ⟨c, hc, rfl⟩ := exists_mem_cover (hp ▸ List.mem_singleton_self p)
  have hbits : e.bits c.2.val = e.bits raw := by
    rw [uncovered_eq_zero_iff, hp, union_cons, union_nil, Nat.or_zero] at hleft
    exact hleft
  have hfirst := (e.isCanonical_cover raw).first c hc
  rw [hbits] at hfirst
  exact nameOf_eq_some_iff_find?.mpr ⟨c.2, hname ▸ hfirst⟩

/-- Zero has no parts. -/
theorem decompose_of_bits_eq_zero (hflags : e.isFlags = true) (h : e.bits raw = 0) :
    e.decompose raw = some [] := by
  have htaken : taken (e.bits raw) e.candidates = [] := by
    refine List.eq_nil_iff_forall_not_mem.mpr fun p hp => ?_
    obtain ⟨hne, -⟩ := mem_candidates.mp ((taken_sublist _ _).subset hp)
    have hle := (within_of_mem_taken hp).le
    omega
  refine decompose_eq_some_iff.mpr ⟨hflags, uncovered_eq_zero_iff.mpr ?_, ?_⟩
  · rw [htaken, h]
    rfl
  · rw [htaken]
    rfl

end EnumType

/-! ### The form without a look-up -/

namespace EnumValue

/-- The form that the decomposition gives, if no name is looked up before. -/
def partsForm (v : EnumValue) : EnumForm :=
  let number := v.type.normalize v.raw.val
  match v.type.decompose number with
  | some (name :: names) =>
    if names.isEmpty then .constant name else .combination (name :: names)
  | _ => .cast number

variable {v : EnumValue}

theorem form_of_nameOf {name : String} (h : v.type.nameOf v.raw.val = some name) :
    v.form = .constant name := by
  rw [form]
  simp only [EnumType.nameOf_normalize, h]

theorem form_of_unnamed (h : v.type.nameOf v.raw.val = none) : v.form = v.partsForm := by
  rw [form, partsForm]
  simp only [EnumType.nameOf_normalize, h]
  rcases v.type.decompose (v.type.normalize v.raw.val) with _ | _ | ⟨name, _ | ⟨second, names⟩⟩
    <;> rfl

theorem partsForm_of_decompose_singleton {name : String}
    (h : v.type.decompose v.raw.val = some [name]) : v.partsForm = .constant name := by
  rw [partsForm]
  simp only [EnumType.decompose_normalize, h]
  rfl

theorem partsForm_of_decompose_nil (h : v.type.decompose v.raw.val = some []) :
    v.partsForm = .cast (v.type.normalize v.raw.val) := by
  rw [partsForm]
  simp only [EnumType.decompose_normalize, h]

/-- For a flags enum the look-up matters to zero alone, and only if zero has a name. -/
theorem form_ne_partsForm_iff (hflags : v.type.isFlags = true) :
    v.form ≠ v.partsForm ↔ v.isZero = true ∧ (v.type.nameOf v.raw.val).isSome = true := by
  rw [isZero, beq_iff_eq]
  cases hname : v.type.nameOf v.raw.val with
  | none => simp [form_of_unnamed hname]
  | some name =>
    by_cases hzero : v.type.bits v.raw.val = 0
    · have hparts := EnumType.decompose_of_bits_eq_zero hflags hzero
      simp [form_of_nameOf hname, partsForm_of_decompose_nil hparts, hzero]
    · have hparts := EnumType.decompose_of_nameOf hflags hzero hname
      simp [form_of_nameOf hname, partsForm_of_decompose_singleton hparts, hzero]

/-- The look-up finds a name for a flags value other than zero exactly if the decomposition has this
name alone.  So a value that is not found never has a decomposition of a single name, and leaving
the look-up out changes the literal of a flags value only if that is a zero with a name. -/
theorem lookup_agrees_with_decompose :
    (∀ (e : EnumType) (raw : Int), e.isFlags = true → e.bits raw ≠ 0 → ∀ name,
      (e.nameOf raw = some name ↔ e.decompose raw = some [name])) ∧
    (∀ (v : EnumValue) (name : String), v.type.nameOf (v.type.normalize v.raw.val) = none →
      v.type.decompose (v.type.normalize v.raw.val) ≠ some [name]) ∧
    ∀ v : EnumValue, v.type.isFlags = true →
      (v.form ≠ v.partsForm ↔ v.isZero = true ∧ (v.type.nameOf v.raw.val).isSome = true) ∧
      ∀ n : Namer, v.literal n ≠ v.partsForm.render n (n.nameOf v.type.type) →
        v.isZero = true := by
  refine ⟨?_, ?_, ?_⟩
  · intro e raw hflags hne name
    exact ⟨EnumType.decompose_of_nameOf hflags hne, EnumType.nameOf_of_decompose_singleton⟩
  · intro v name hunnamed hsingle
    rw [EnumType.nameOf_of_decompose_singleton hsingle] at hunnamed
    cases hunnamed
  · intro v hflags
    refine ⟨form_ne_partsForm_iff hflags, ?_⟩
    intro n hliteral
    have hform : v.form ≠ v.partsForm := by
      intro heq
      exact hliteral (by rw [literal, heq])
    exact ((form_ne_partsForm_iff hflags).mp hform).1

/-- A flags enum over `byte` with a name for zero and two names for both of its lower bits.  Its
constants are wider than a byte. -/
def permissions : EnumType where
  type := .ofName "Permissions"
  underlying := .integral .byte
  isFlags := true
  constants := .ofList
    [("None", ⟨512, by decide, by decide⟩), ("Read", ⟨513, by decide, by decide⟩),
      ("ReadWrite", ⟨515, by decide, by decide⟩), ("All", ⟨771, by decide, by decide⟩),
      ("Write", ⟨514, by decide, by decide⟩), ("Execute", ⟨516, by decide, by decide⟩)]

theorem lookup_agrees_with_decompose_alias :
    permissions.isFlags = true ∧ permissions.bits 4294967299 ≠ 0 ∧
    permissions.decompose 4294967299 = some ["ReadWrite"] ∧
    permissions.nameOf 5 = none ∧ permissions.decompose 5 ≠ some ["ReadWrite"] ∧
    (EnumValue.mk permissions ⟨0, by decide, by decide⟩).form
      ≠ (EnumValue.mk permissions ⟨0, by decide, by decide⟩).partsForm := by
  have hflags : permissions.isFlags = true := rfl
  have hne : permissions.bits 4294967299 ≠ 0 := by decide +kernel
  have hname : permissions.nameOf 4294967299 = some "ReadWrite" := by decide +kernel
  have hunnamed : permissions.nameOf 5 = none := by decide +kernel
  obtain ⟨hagree, hsingle, hzero⟩ := lookup_agrees_with_decompose
  refine ⟨hflags, hne, ?_, hunnamed, ?_, ?_⟩
  · exact (hagree permissions 4294967299 hflags hne "ReadWrite").mp hname
  · exact hsingle ⟨permissions, ⟨5, by decide, by decide⟩⟩ "ReadWrite" hunnamed
  · exact (hzero ⟨permissions, ⟨0, by decide, by decide⟩⟩ hflags).1.mpr
      ⟨by decide +kernel, by decide +kernel⟩

end EnumValue

end LiteralForm
