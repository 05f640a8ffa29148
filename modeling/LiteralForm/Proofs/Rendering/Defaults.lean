/-
Structs that are the default of their type.

* `Value.LeafIn`: the values that are no structs, in the fields of a struct and of the structs in
  them, at any depth;
* `Value.IsZeroLeaf`: the zeros of all kinds other than structs, kind by kind;
* `Value.allZero_iff_leaves`: the fields are zero exactly if all leaves in them are;
* `Renderer.code_struct_leaves`: so a struct has code exactly if its leaves are zeros, however the
  leaves are spread over fields and nested structs (`Rearranged`), and more fields (`Extended`)
  never give code to a struct that has none.
-/
import LiteralForm.Proofs.Float.Literal
import LiteralForm.Proofs.Rendering.Events

namespace LiteralForm

/-! Powers of natural numbers are the built-in ones, whatever else is imported. -/
attribute [local instance (2000)] instPowNat

/-! ### Zeros of each kind -/

/-- The zeros are the two patterns with nothing but a sign. -/
theorem BinaryFloat.isZero_eq_true_iff {f : FloatFormat} {x : BinaryFloat f} :
    x.isZero = true ↔ ∃ negative, x = .ofMagnitude negative 0 := by
  rw [isZero, beq_iff_eq]
  constructor
  · intro hzero
    have hbits := x.toNat_bits
    rw [hzero, Nat.add_zero] at hbits
    refine ⟨x.negative, ?_⟩
    cases x with
    | mk bits =>
      rw [ofMagnitude, Nat.add_zero, ← hbits, BitVec.ofNat_toNat, BitVec.setWidth_eq]
  · rintro ⟨negative, rfl⟩
    have hdvd : 2 ^ (f.width - 1) ∣ 2 ^ f.width := Nat.pow_dvd_pow 2 (Nat.sub_le _ _)
    rw [magnitude, ofMagnitude, BitVec.toNat_ofNat, Nat.mod_mod_of_dvd _ hdvd]
    cases negative with
    | false => exact Nat.zero_mod _
    | true => exact Nat.mod_self _

theorem EnumType.bits_eq_zero_iff {e : EnumType} {raw : Int} :
    e.bits raw = 0 ↔ ((2 ^ e.width : Nat) : Int) ∣ raw := by
  rw [← bits_zero e, bits_eq_bits_iff, Int.zero_emod]
  exact Int.dvd_iff_emod_eq_zero.symm

namespace Value

/-- The zeros of the kinds other than structs.  The value of an enum is a zero if it is a multiple of
`2 ^ w`, where `w` is the number of bits of its underlying type. -/
inductive IsZeroLeaf : Value → Prop
  | null : IsZeroLeaf null
  | char : IsZeroLeaf (char '\x00')
  | decimal {d : Decimal} (h : d.mantissa = 0) : IsZeroLeaf (decimal d)
  | float32 (negative : Bool) : IsZeroLeaf (float32 (.ofMagnitude negative 0))
  | float64 (negative : Bool) : IsZeroLeaf (float64 (.ofMagnitude negative 0))
  | integral {n : Integral} (h : n.value = 0) : IsZeroLeaf (integral n)
  | bool : IsZeroLeaf (bool false)
  | enum {v : EnumValue} (h : ((2 ^ v.type.width : Nat) : Int) ∣ v.raw.val) : IsZeroLeaf (enum v)

theorem isZero_iff_isZeroLeaf {v : Value} (hv : ∀ t inner, v ≠ struct t inner) :
    v.isZero = true ↔ v.IsZeroLeaf := by
  cases v with
  | null => exact ⟨fun _ => .null, fun _ => rfl⟩
  | char c =>
    rw [isZero, beq_iff_eq]
    constructor
    · rintro rfl
      exact .char
    · rintro ⟨⟩
      rfl
  | decimal d =>
    rw [isZero, Decimal.isZero, beq_iff_eq]
    exact ⟨.decimal, fun | .decimal h => h⟩
  | float32 x =>
    rw [isZero, BinaryFloat.isZero_eq_true_iff]
    constructor
    · rintro ⟨negative, rfl⟩
      exact .float32 negative
    · rintro ⟨⟩
      exact ⟨_, rfl⟩
  | float64 x =>
    rw [isZero, BinaryFloat.isZero_eq_true_iff]
    constructor
    · rintro ⟨negative, rfl⟩
      exact .float64 negative
    · rintro ⟨⟩
      exact ⟨_, rfl⟩
  | integral n =>
    rw [isZero, beq_iff_eq]
    exact ⟨.integral, fun | .integral h => h⟩
  | bool b =>
    cases b with
    | false => exact ⟨fun _ => .bool, fun _ => rfl⟩
    | true => exact ⟨nofun, nofun⟩
  | enum v =>
    rw [isZero, EnumValue.isZero, beq_iff_eq, EnumType.bits_eq_zero_iff]
    exact ⟨.enum, fun | .enum h => h⟩
  | struct t inner => exact absurd rfl (hv t inner)
  | string _ | type _ | method _ _ | unsupported _ => exact ⟨nofun, nofun⟩

/-! ### Leaves -/

/-- The value is no struct and stands in one of the fields, or in a field of a struct in one of
them, at any depth. -/
inductive LeafIn (w : Value) : List (String × Value) → Prop
  | field {name : String} {fields : List (String × Value)} (h : (name, w) ∈ fields)
    (hw : ∀ t inner, w ≠ struct t inner) : LeafIn w fields
  | nested {name : String} {t : TypeRef} {inner fields : List (String × Value)}
    (h : (name, struct t inner) ∈ fields) (hw : LeafIn w inner) : LeafIn w fields

variable {w : Value} {name : String} {t : TypeRef} {fields inner fs gs : List (String × Value)}

theorem LeafIn.of_subset (h : LeafIn w fs) (hsub : fs ⊆ gs) : LeafIn w gs := by
  cases h with
  | field h hw => exact .field (hsub h) hw
  | nested h hw => exact .nested (hsub h) hw

theorem leafIn_append : LeafIn w (fs ++ gs) ↔ LeafIn w fs ∨ LeafIn w gs := by
  constructor
  · rintro (⟨h, hw⟩ | ⟨h, hw⟩)
    · exact (List.mem_append.mp h).imp (.field · hw) (.field · hw)
    · exact (List.mem_append.mp h).imp (.nested · hw) (.nested · hw)
  · rintro (h | h)
    · exact h.of_subset (List.subset_append_left fs gs)
    · exact h.of_subset (List.subset_append_right fs gs)

/-- A nested struct contributes its own leaves. -/
theorem leafIn_cons_struct :
    LeafIn w ((name, struct t inner) :: fields) ↔ LeafIn w inner ∨ LeafIn w fields := by
  constructor
  · rintro (⟨h, hw⟩ | ⟨h, hw⟩)
    · rcases List.mem_cons.mp h with heq | h
      · cases heq
        exact absurd rfl (hw t inner)
      · exact .inr (.field h hw)
    · rcases List.mem_cons.mp h with heq | h
      · cases heq
        exact .inl hw
      · exact .inr (.nested h hw)
  · rintro (h | h)
    · exact .nested List.mem_cons_self h
    · exact h.of_subset (List.subset_cons_self _ fields)

theorem LeafIn.rename {m : String} {v : Value} (n : String) (h : LeafIn w ((m, v) :: fields)) :
    LeafIn w ((n, v) :: fields) := by
  cases h with
  | field h hw =>
    rcases List.mem_cons.mp h with heq | h
    · cases heq
      exact .field List.mem_cons_self hw
    · exact .field (List.mem_cons_of_mem _ h) hw
  | nested h hw =>
    rcases List.mem_cons.mp h with heq | h
    · cases heq
      exact .nested List.mem_cons_self hw
    · exact .nested (List.mem_cons_of_mem _ h) hw

theorem LeafIn.ne_struct (h : LeafIn w fields) : ∀ t inner, w ≠ struct t inner := by
  induction h with
  | field _ hw => exact hw
  | nested _ _ ih => exact ih

theorem LeafIn.isZero_eq_true (h : LeafIn w fields) (hall : allZero fields = true) :
    w.isZero = true := by
  induction h with
  | field h _ => exact allZero_eq_true_iff.mp hall _ h
  | nested h _ ih => exact ih (allZero_eq_true_iff.mp hall _ h)

mutual

/-- A value that is not zero is itself no struct, or has a leaf that is not zero. -/
theorem exists_leaf_of_isZero_eq_false (v : Value) (h : v.isZero = false) :
    (∀ t inner, v ≠ struct t inner) ∨
      ∃ t inner, v = struct t inner ∧ ∃ w, LeafIn w inner ∧ w.isZero = false := by
  match v with
  | struct t inner => exact .inr ⟨t, inner, rfl, exists_leaf_of_allZero_eq_false inner h⟩
  | null | string _ | char _ | decimal _ | float32 _ | float64 _ | integral _ | bool _ | enum _
  | type _ | method _ _ | unsupported _ => exact .inl nofun

theorem exists_leaf_of_allZero_eq_false (fields : List (String × Value))
    (h : allZero fields = false) : ∃ w, LeafIn w fields ∧ w.isZero = false := by
  match fields with
  | [] => cases h
  | (name, v) :: rest =>
    rw [allZero, Bool.and_eq_false_iff] at h
    rcases h with hv | hrest
    · rcases exists_leaf_of_isZero_eq_false v hv with hleaf | ⟨t, inner, rfl, w, hw, hzero⟩
      · exact ⟨v, .field List.mem_cons_self hleaf, hv⟩
      · exact ⟨w, .nested List.mem_cons_self hw, hzero⟩
    · obtain ⟨w, hw, hzero⟩ := exists_leaf_of_allZero_eq_false rest hrest
      exact ⟨w, hw.of_subset (List.subset_cons_self _ rest), hzero⟩

end

theorem allZero_iff_leaves : allZero fields = true ↔ ∀ w, LeafIn w fields → w.IsZeroLeaf := by
  constructor
  · intro hall w hw
    exact (isZero_iff_isZeroLeaf hw.ne_struct).mp (hw.isZero_eq_true hall)
  · intro hleaves
    refine Bool.eq_true_of_not_eq_false fun hall => ?_
    obtain ⟨w, hw, hzero⟩ := exists_leaf_of_allZero_eq_false fields hall
    rw [(isZero_iff_isZeroLeaf hw.ne_struct).mpr (hleaves w hw)] at hzero
    cases hzero

/-! ### Fields rearranged and extended -/

/-- The same leaves in other fields: in another order, under other names, and with structs around
some of them or taken away.  A struct without fields is one around no leaves. -/
inductive Rearranged : List (String × Value) → List (String × Value) → Prop
  | reorder {fs gs : List (String × Value)} (h : fs.Perm gs) : Rearranged fs gs
  | rename (m n : String) (v : Value) (fs : List (String × Value)) :
    Rearranged ((m, v) :: fs) ((n, v) :: fs)
  | flatten (name : String) (t : TypeRef) (inner fs : List (String × Value)) :
    Rearranged ((name, struct t inner) :: fs) (inner ++ fs)
  | inside {inner inner' : List (String × Value)} (h : Rearranged inner inner') (name : String)
    (t : TypeRef) (fs : List (String × Value)) :
    Rearranged ((name, struct t inner) :: fs) ((name, struct t inner') :: fs)
  | symm {fs gs : List (String × Value)} (h : Rearranged fs gs) : Rearranged gs fs
  | trans {fs gs hs : List (String × Value)} (h : Rearranged fs gs) (h' : Rearranged gs hs) :
    Rearranged fs hs

/-- More fields, in any places and at any depth. -/
inductive Extended : List (String × Value) → List (String × Value) → Prop
  | reorder {fs gs : List (String × Value)} (h : fs.Perm gs) : Extended fs gs
  | field (name : String) (v : Value) (fs : List (String × Value)) :
    Extended fs ((name, v) :: fs)
  | inside {inner inner' : List (String × Value)} (h : Extended inner inner') (name : String)
    (t : TypeRef) (fs : List (String × Value)) :
    Extended ((name, struct t inner) :: fs) ((name, struct t inner') :: fs)
  | trans {fs gs hs : List (String × Value)} (h : Extended fs gs) (h' : Extended gs hs) :
    Extended fs hs

theorem Rearranged.leafIn_iff (h : Rearranged fs gs) : LeafIn w fs ↔ LeafIn w gs := by
  induction h with
  | reorder h => exact ⟨(·.of_subset h.subset), (·.of_subset h.symm.subset)⟩
  | rename m n v fs => exact ⟨(·.rename n), (·.rename m)⟩
  | flatten name t inner fs => rw [leafIn_cons_struct, leafIn_append]
  | inside h name t fs ih => rw [leafIn_cons_struct, leafIn_cons_struct, ih]
  | symm h ih => exact ih.symm
  | trans h h' ih ih' => exact ih.trans ih'

theorem Extended.leafIn (h : Extended fs gs) (hw : LeafIn w fs) : LeafIn w gs := by
  induction h with
  | reorder h => exact hw.of_subset h.subset
  | field name v fs => exact hw.of_subset (List.subset_cons_self _ fs)
  | inside h name t fs ih => exact leafIn_cons_struct.mpr ((leafIn_cons_struct.mp hw).imp_left ih)
  | trans h h' ih ih' => exact ih' (ih hw)

end Value

/-! ### The code of a struct -/

namespace Renderer

open Value

theorem code_struct (r : Renderer) (declared : Option TypeRef) (t : TypeRef)
    (fields : List (String × Value)) : (r.render declared (.struct t fields)).code
      = if allZero fields then some ("default(" ++ r.namer.nameOf t ++ ")") else none := by
  rw [render, structDefault?]
  cases allZero fields <;> rfl

/-- A struct has code exactly if all its leaves are zeros, and the code is the default of its
type.  The leaves may be spread in any way over fields and nested structs, and more fields do not
give code to a struct that has none. -/
theorem code_struct_leaves (r : Renderer) (declared : Option TypeRef) (t : TypeRef)
    (fields : List (String × Value)) :
    ((r.render declared (.struct t fields)).code
        = some ("default(" ++ r.namer.nameOf t ++ ")") ↔ ∀ w, LeafIn w fields → w.IsZeroLeaf) ∧
    ((r.render declared (.struct t fields)).code = none
      ↔ ¬∀ w, LeafIn w fields → w.IsZeroLeaf) ∧
    (∀ gs, Rearranged fields gs → (r.render declared (.struct t gs)).code
      = (r.render declared (.struct t fields)).code) ∧
    ∀ gs, Extended fields gs → (r.render declared (.struct t fields)).code = none →
      (r.render declared (.struct t gs)).code = none := by
  simp only [code_struct, ← allZero_iff_leaves]
  refine ⟨by simp, by simp, ?_, ?_⟩
  · intro gs hgs
    have hzero : allZero gs = true ↔ allZero fields = true := by
      rw [allZero_iff_leaves, allZero_iff_leaves]
      exact forall_congr' fun w => imp_congr_left hgs.leafIn_iff.symm
    rw [if_congr hzero rfl rfl]
  · intro gs hgs hnone
    refine if_neg fun hzero => ?_
    rw [if_pos] at hnone
    · cases hnone
    · rw [allZero_iff_leaves] at hzero ⊢
      exact fun w hw => hzero w (hgs.leafIn hw)

/-- A negative zero and a value of an enum over `byte` in which only the ninth bit is set. -/
def zeroFields : List (String × Value) :=
  [("Ratio", .float64 (.ofMagnitude true 0)),
    ("Mode", .enum ⟨{ EnumType.ofType (.ofName "Mode") with underlying := .integral .byte },
      ⟨256, by decide, by decide⟩⟩)]

/-- A struct around a number. -/
def counter : List (String × Value) :=
  [("Inner", .struct (.ofName "Inner") [("Count", .integral ⟨.uint32, 3, by decide⟩)])]

/-- The same struct with two more zeros in it. -/
def extendedCounter : List (String × Value) :=
  [("Inner", .struct (.ofName "Inner")
    (zeroFields ++ [("Count", .integral ⟨.uint32, 3, by decide⟩)]))]

theorem code_struct_leaves_nested :
    Rearranged [("Next", .null), ("Inner", .struct (.ofName "Inner") zeroFields)]
      (zeroFields ++ [("Last", .null)]) ∧
    ((csharp .default).render none
      (.struct (.ofName "Outer") (zeroFields ++ [("Last", .null)]))).code
        = some "default(Outer)" ∧
    Extended counter extendedCounter ∧
    ((csharp .default).render none (.struct (.ofName "Outer") counter)).code = none ∧
    ((csharp .default).render none (.struct (.ofName "Outer") extendedCounter)).code = none := by
  have hflat : Rearranged [("Next", .null), ("Inner", .struct (.ofName "Inner") zeroFields)]
      (zeroFields ++ [("Last", .null)]) :=
    ((Rearranged.rename "Next" "Last" .null _).trans (.reorder (.swap _ _ []))).trans
      (.flatten "Inner" (.ofName "Inner") zeroFields _)
  have hmore : Extended counter extendedCounter :=
    .inside ((Extended.field _ _ _).trans (.field _ _ _)) _ _ _
  have hnested : ((csharp .default).render none (.struct (.ofName "Outer")
      [("Next", .null), ("Inner", .struct (.ofName "Inner") zeroFields)])).code
        = some "default(Outer)" := by decide +kernel
  have hcounter : ((csharp .default).render none (.struct (.ofName "Outer") counter)).code
      = none := by decide +kernel
  refine ⟨hflat, ?_, hmore, hcounter, ?_⟩
  · exact ((code_struct_leaves (csharp .default) none (.ofName "Outer") _).2.2.1 _ hflat).trans
      hnested
  · -- The fields that are added are zeros, and the number is still not.
    exact (code_struct_leaves (csharp .default) none (.ofName "Outer") counter).2.2.2 _ hmore
      hcounter

end Renderer

end LiteralForm
