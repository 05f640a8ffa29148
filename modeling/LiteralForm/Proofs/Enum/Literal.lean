/-
What an enum literal denotes.

`EnumValue.Written` says when a text is right for an enum value, in terms of the declaration
alone: congruence modulo the underlying width, declared constants, and the one number of the
underlying range.  `literal_written` proves every literal right.

* `nameOf_eq_some_iff`, `nameOf_eq_none_iff`: the look-up finds the first congruent constant;
* `exists_parts_of_decompose`: a decomposition names declared constants whose patterns together
  are the pattern of the value.
-/
import LiteralForm.CSharp.TypeName
import LiteralForm.Enum.Literal
import LiteralForm.Proofs.Enum.Bits
import LiteralForm.Proofs.Enum.Cover

namespace LiteralForm

/-! ### What a literal should be -/

/-- The pattern that has all bits of the given constants. -/
def IntKind.unionPattern (k : IntKind) (constants : List (String × Int128)) : BitVec k.width :=
  constants.foldr (fun c bits => k.pattern c.2.val ||| bits) 0

/-- No constant of the declaration is congruent to the number. -/
def EnumType.Unnamed (e : EnumType) (k : IntKind) (raw : Int) : Prop :=
  ∀ c ∈ e.constants.entries, ¬k.Congruent c.2.val raw

/-- The text denotes the value of an enum type over the integral kind `k`. -/
inductive EnumValue.Written (k : IntKind) (n : Namer) (v : EnumValue) : String → Prop
  /-- The first declared constant that is congruent to the value. -/
  | named (before after : List (String × Int128)) (name : String) (value : Int128)
      (declared : v.type.constants.entries = before ++ (name, value) :: after)
      (congruent : k.Congruent value.val v.raw.val)
      (first : ∀ c ∈ before, ¬k.Congruent c.2.val v.raw.val) :
      Written k n v (n.nameOf v.type.type ++ "." ++ n.member name)
  /-- Several declared constants of a flags enum whose patterns make up that of the value. -/
  | combined (parts : List (String × Int128))
      (unnamed : v.type.Unnamed k v.raw.val)
      (isFlags : v.type.isFlags)
      (nonzero : ¬k.Congruent v.raw.val 0)
      (covered : v.type.uncovered v.raw.val = 0)
      (declared : ∀ c ∈ parts, c ∈ v.type.constants.entries)
      (several : 2 ≤ parts.length)
      (whole : k.unionPattern parts = k.pattern v.raw.val) :
      Written k n v ("(" ++ String.intercalate " | "
        (parts.map fun c => n.nameOf v.type.type ++ "." ++ n.member c.1) ++ ")")
  /-- The one number of the underlying range that is congruent to the value. -/
  | cast (number : Int)
      (unnamed : v.type.Unnamed k v.raw.val)
      (reason : v.type.isFlags = false ∨ k.Congruent v.raw.val 0 ∨
        v.type.uncovered v.raw.val ≠ 0)
      (inRange : k.InRange number)
      (congruent : k.Congruent number v.raw.val)
      (unique : ∀ m, k.InRange m → k.Congruent m v.raw.val → m = number) :
      Written k n v ("((" ++ n.nameOf v.type.type ++ ")" ++
        (if number < 0 then "(" ++ toString number ++ ")" else toString number) ++ ")")

namespace EnumType

variable {e : EnumType} {k : IntKind} {raw : Int}

/-! ### The look-up of a name -/

theorem nameOf_eq_none_iff (hk : e.underlying = .integral k) :
    e.nameOf raw = none ↔ e.Unnamed k raw := by
  rw [nameOf, Option.map_eq_none_iff, List.find?_eq_none]
  refine forall₂_congr fun c _ => ?_
  rw [beq_iff_eq, bits_eq_bits_iff_congruent hk]

theorem nameOf_eq_some_iff (hk : e.underlying = .integral k) {name : String} :
    e.nameOf raw = some name ↔ ∃ before value after,
      e.constants.entries = before ++ (name, value) :: after ∧
        k.Congruent value.val raw ∧ ∀ c ∈ before, ¬k.Congruent c.2.val raw := by
  rw [nameOf, Option.map_eq_some_iff]
  simp only [List.find?_eq_some_iff_append, Bool.not_eq_true', beq_iff_eq, beq_eq_false_iff_ne,
    ne_eq, bits_eq_bits_iff_congruent hk]
  constructor
  · rintro ⟨⟨name', value⟩, ⟨hc, before, after, hsplit, hfirst⟩, rfl⟩
    exact ⟨before, value, after, hsplit, hc, hfirst⟩
  · rintro ⟨before, value, after, hsplit, hc, hfirst⟩
    exact ⟨(name, value), ⟨hc, before, after, hsplit, hfirst⟩, rfl⟩

/-! ### The parts of a decomposition -/

theorem decompose_normalize (e : EnumType) (raw : Int) :
    e.decompose (e.normalize raw) = e.decompose raw := by
  simp [decompose]

/-- Candidates are the patterns of declared constants. -/
theorem exists_constants {ps : List (String × Nat)} (h : ∀ p ∈ ps, p ∈ e.candidates) :
    ∃ cs : List (String × Int128), (∀ c ∈ cs, c ∈ e.constants.entries) ∧
      cs.map (fun c => (c.1, e.bits c.2.val)) = ps := by
  induction ps with
  | nil => exact ⟨[], by simp, rfl⟩
  | cons p ps ih =>
    obtain ⟨cs, hmem, hmap⟩ := ih fun q hq => h q (List.mem_cons_of_mem p hq)
    obtain ⟨-, c, hc, hp⟩ := mem_candidates.mp (h p List.mem_cons_self)
    refine ⟨c :: cs, ?_, ?_⟩
    · intro d hd
      rcases List.mem_cons.mp hd with rfl | hd
      · exact hc
      · exact hmem d hd
    · rw [List.map_cons, hp, hmap]

/-- The names of a decomposition belong to declared constants whose patterns make up the pattern
of the value. -/
theorem exists_parts_of_decompose {names : List String} (h : e.decompose raw = some names) :
    ∃ parts : List (String × Int128), (∀ c ∈ parts, c ∈ e.constants.entries) ∧
      parts.map Prod.fst = names ∧
      union (parts.map fun c => (c.1, e.bits c.2.val)) = e.bits raw := by
  obtain ⟨-, hleft, rfl⟩ := decompose_eq_some_iff.mp h
  have hmem : ∀ p ∈ (taken (e.bits raw) e.candidates).reverse, p ∈ e.candidates := fun p hp =>
    (taken_sublist _ _).subset (List.mem_reverse.mp hp)
  obtain ⟨parts, hdecl, hmap⟩ := exists_constants hmem
  refine ⟨parts, hdecl, ?_, ?_⟩
  · rw [← List.map_reverse, ← hmap, List.map_map]
    rfl
  · have hall := union_taken (e.bits raw) e.candidates
    rw [show (greedyCover (e.bits raw) e.candidates).2 = 0 from hleft, Nat.or_zero] at hall
    rw [hmap, union_reverse, hall]

theorem toNat_unionPattern (hk : e.underlying = .integral k) (cs : List (String × Int128)) :
    (k.unionPattern cs).toNat = union (cs.map fun c => (c.1, e.bits c.2.val)) := by
  induction cs with
  | nil => simp [IntKind.unionPattern]
  | cons c cs ih =>
    simp only [IntKind.unionPattern, List.foldr_cons, BitVec.toNat_or, List.map_cons,
      union_cons, toNat_pattern hk] at ih ⊢
    rw [ih]

theorem unionPattern_eq (hk : e.underlying = .integral k) {cs : List (String × Int128)}
    (h : union (cs.map fun c => (c.1, e.bits c.2.val)) = e.bits raw) :
    k.unionPattern cs = k.pattern raw := by
  rw [BitVec.toNat_eq, toNat_unionPattern hk, h, toNat_pattern hk]

theorem congruent_zero_iff (hk : e.underlying = .integral k) :
    k.Congruent raw 0 ↔ e.bits raw = 0 := by
  rw [← bits_eq_bits_iff_congruent hk, bits_zero]

end EnumType

namespace EnumValue

variable {k : IntKind} {v : EnumValue}

/-- A literal depends on the name of the type, on the number in range and on what the look-up and
the decomposition find, and on nothing else of the declaration. -/
theorem literal_eq_of_agree {w : EnumValue} (htype : v.type.type = w.type.type)
    (hnumber : v.type.normalize v.raw.val = w.type.normalize w.raw.val)
    (hname : v.type.nameOf v.raw.val = w.type.nameOf w.raw.val)
    (hparts : v.type.decompose v.raw.val = w.type.decompose w.raw.val) (n : Namer) :
    v.literal n = w.literal n := by
  have hform : v.form = w.form := by
    unfold form
    simp only [EnumType.nameOf_normalize, EnumType.decompose_normalize]
    rw [hname, hparts, hnumber]
  rw [literal, literal, hform, htype]

/-- The form of a value that has no name. -/
theorem written_of_cast (n : Namer) (hk : v.type.underlying = .integral k)
    (unnamed : v.type.Unnamed k v.raw.val)
    (reason : v.type.isFlags = false ∨ k.Congruent v.raw.val 0 ∨
      v.type.uncovered v.raw.val ≠ 0) :
    v.Written k n (numericCast (n.nameOf v.type.type) (v.type.normalize v.raw.val)) := by
  rw [EnumType.normalize_of_integral hk]
  have hw := Written.cast (n := n) (v := v) _ unnamed reason (k.wrap_inRange v.raw.val)
    (k.wrap_congruent v.raw.val) fun m hm hc => IntKind.eq_wrap hm hc
  unfold numericCast
  split
  · next h =>
    rw [if_pos h] at hw
    rw [show ")(" = ")" ++ "(" from rfl, show "))" = ")" ++ ")" from rfl]
    simpa only [String.append_assoc] using hw
  · next h =>
    rw [if_neg h] at hw
    exact hw

/-- Every enum literal denotes its value: it names the first congruent constant, or combines
constants of a flags enum, or else casts the one number of the range that is congruent. -/
theorem literal_written (n : Namer) (v : EnumValue) {k : IntKind}
    (hk : v.type.underlying = .integral k) : v.Written k n (v.literal n) := by
  unfold literal form
  simp only [EnumType.nameOf_normalize, EnumType.decompose_normalize]
  cases hname : v.type.nameOf v.raw.val with
  | some name =>
    obtain ⟨before, value, after, hsplit, hc, hfirst⟩ := (EnumType.nameOf_eq_some_iff hk).mp hname
    exact .named before after name value hsplit hc hfirst
  | none =>
    have unnamed := (EnumType.nameOf_eq_none_iff hk).mp hname
    cases hdec : v.type.decompose v.raw.val with
    | none =>
      refine written_of_cast n hk unnamed ?_
      by_cases hf : v.type.isFlags
      · refine .inr (.inr fun hleft => ?_)
        have hsome := EnumType.decompose_eq_some_iff.mpr ⟨hf, hleft, rfl⟩
        rw [hdec] at hsome
        simp at hsome
      · exact .inl (by simpa using hf)
    | some names =>
      obtain ⟨parts, hdecl, rfl, hunion⟩ := EnumType.exists_parts_of_decompose hdec
      obtain ⟨hf, hleft, -⟩ := EnumType.decompose_eq_some_iff.mp hdec
      match parts with
      | [] =>
        refine written_of_cast n hk unnamed (.inr (.inl ?_))
        exact (EnumType.congruent_zero_iff hk).mpr hunion.symm
      | [c] =>
        -- A lone constant with the whole pattern would have been found by its value.
        refine absurd ?_ (unnamed c (hdecl c List.mem_cons_self))
        rw [← EnumType.bits_eq_bits_iff_congruent hk]
        simpa using hunion
      | c :: d :: rest =>
        have hzero : ¬k.Congruent v.raw.val 0 := by
          -- Each part of zero is zero, so the first one would name the value.
          intro h
          refine unnamed c (hdecl c List.mem_cons_self) ?_
          rw [EnumType.congruent_zero_iff hk] at h
          rw [h] at hunion
          rw [← EnumType.bits_eq_bits_iff_congruent hk, h]
          exact (Nat.or_eq_zero_iff.mp hunion).1
        have hw := Written.combined (n := n) (v := v) (c :: d :: rest) unnamed hf hzero hleft hdecl
          (by simp) (EnumType.unionPattern_eq hk hunion)
        simpa [EnumForm.render, List.map_map, Function.comp_def] using hw

/-- The lowest and the highest bit of a flags enum over `int32`, given as an unsigned number. -/
def lowAndHigh : EnumValue where
  type :=
    { type := .ofName "Bits", underlying := .integral .int32, isFlags := true,
      constants := .ofList
        [("Low", ⟨1, by decide, by decide⟩), ("High", ⟨-2147483648, by decide, by decide⟩)] }
  raw := ⟨2147483649, by decide, by decide⟩

theorem lowAndHigh_written : lowAndHigh.type.underlying = .integral .int32 ∧
    lowAndHigh.Written .int32 (CSharp.namer false) "(Bits.Low | Bits.High)" := by
  have hk : lowAndHigh.type.underlying = .integral .int32 := rfl
  have hname : lowAndHigh.type.nameOf (lowAndHigh.type.normalize lowAndHigh.raw.val) = none := by
    decide +kernel
  have hpatterns : lowAndHigh.type.patterns = [("Low", 1), ("High", 2147483648)] := by
    decide +kernel
  have hsorted : lowAndHigh.type.candidates = [("High", 2147483648), ("Low", 1)] := by
    simp [EnumType.candidates, hpatterns, List.mergeSort]
  have hform : lowAndHigh.form = .combination ["Low", "High"] := by
    rw [form, hname, EnumType.decompose, hsorted]
    decide +kernel
  have htext : lowAndHigh.literal (CSharp.namer false) = "(Bits.Low | Bits.High)" := by
    rw [literal, hform]
    decide +kernel
  exact ⟨hk, htext ▸ literal_written (CSharp.namer false) lowAndHigh hk⟩

end EnumValue

end LiteralForm
