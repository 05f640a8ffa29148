/-
One constant more.

A constant that is declared besides the others changes nothing for the values that it is no part of.

* `EnumType.declare`: the declaration with one constant more;
* `IsPart`: the constant has bits, and all of them are bits of the value;
* `IsCanonical.declare`: a canonical cover stays canonical if the new constant is no part;
* `declare_frame`: so the name, the decomposition and the literal of the value stay the same.

Design notes: the new constant can stand anywhere among the sorted candidates, but the walks over
both lists need not be compared.  There is one canonical cover of a value for each declaration, and
the old one meets the conditions of the new declaration.
-/
import LiteralForm.Proofs.Enum.Canonical

namespace LiteralForm

namespace EnumType

/-- The declaration with a name declared besides. -/
def declare (e : EnumType) (name : String) (value : Int128) : EnumType :=
  { e with constants := e.constants.set name value }

/-- The pattern of a constant is a part of the pattern of a value, and it is not empty. -/
def IsPart (e : EnumType) (value raw : Int) : Prop :=
  e.bits value ≠ 0 ∧ Within (e.bits value) (e.bits raw)

variable {e : EnumType} {name : String} {value : Int128} {raw : Int}

theorem entries_declare (hnew : name ∉ e.constants.names) (value : Int128) :
    (e.declare name value).constants.entries = e.constants.entries ++ [(name, value)] :=
  Constants.entries_set hnew value

/-! ### The name -/

theorem nameOf_declare (hnew : name ∉ e.constants.names) (hne : e.bits value.val ≠ e.bits raw) :
    (e.declare name value).nameOf raw = e.nameOf raw := by
  have hmiss : [(name, value)].find? (fun c => e.bits c.2.val == e.bits raw) = none := by
    rw [List.find?_singleton, beq_false_of_ne hne]
    rfl
  rw [nameOf, entries_declare hnew, List.find?_append]
  show ((e.constants.entries.find? fun c => e.bits c.2.val == e.bits raw).or
    ([(name, value)].find? fun c => e.bits c.2.val == e.bits raw)).map Prod.fst = e.nameOf raw
  rw [hmiss, Option.or_none, nameOf]

/-! ### The decomposition -/

/-- A canonical cover stays one if the new constant is no part of the value. -/
theorem IsCanonical.declare {G : Set (String × Int128)} (hG : e.IsCanonical raw G)
    (hnew : name ∉ e.constants.names) (hpart : ¬e.IsPart value.val raw) :
    (e.declare name value).IsCanonical raw G where
  declared c hc := by
    rw [entries_declare hnew]
    exact List.mem_append_left _ (hG.declared c hc)
  nonzero := hG.nonzero
  within := hG.within
  first c hc := by
    rw [entries_declare hnew, List.find?_append]
    exact (congrArg (Option.or · _) (hG.first c hc)).trans Option.some_or
  disjoint := hG.disjoint
  greedy c hc hne hwithin hnot := by
    rw [entries_declare hnew, List.mem_append, List.mem_singleton] at hc
    rcases hc with hold | rfl
    · exact hG.greedy c hold hne hwithin hnot
    · exact absurd ⟨hne, hwithin⟩ hpart

theorem taken_declare (hnew : name ∉ e.constants.names) (hpart : ¬e.IsPart value.val raw) :
    taken (e.bits raw) (e.declare name value).candidates = taken (e.bits raw) e.candidates := by
  obtain ⟨cs, hcover, hmap⟩ := e.exists_list_cover raw
  have hsame : (e.declare name value).cover raw = e.cover raw :=
    (isCanonical_cover _ raw).unique ((e.isCanonical_cover raw).declare hnew hpart)
  have hreverse : e.cover raw = {c | c ∈ cs.reverse} := by
    rw [hcover]
    exact Set.ext fun c => List.mem_reverse.symm
  have hold : taken (e.bits raw) e.candidates = cs.reverse.map e.named := by
    rw [List.map_reverse, hmap, List.reverse_reverse]
  have hdesc : cs.reverse.Pairwise fun c d => e.bits d.2.val < e.bits c.2.val := by
    have hsorted := e.pairwise_lt_taken raw
    rw [hold] at hsorted
    exact List.pairwise_map.mp hsorted
  rw [hold]
  exact taken_eq_map (hsame.trans hreverse) hdesc

theorem decompose_declare (hnew : name ∉ e.constants.names) (hpart : ¬e.IsPart value.val raw) :
    (e.declare name value).decompose raw = e.decompose raw := by
  have htaken := taken_declare hnew hpart
  have hleft : (e.declare name value).uncovered raw = 0 ↔ e.uncovered raw = 0 := by
    rw [uncovered_eq_zero_iff, uncovered_eq_zero_iff]
    exact htaken ▸ Iff.rfl
  refine Option.ext fun names => ?_
  rw [decompose_eq_some_iff, decompose_eq_some_iff, hleft]
  exact htaken ▸ Iff.rfl

/-! ### Everything that is written -/

/-- A constant that is declared besides the others leaves the name, the decomposition and the
literal of a value as they are if its pattern is not contained in that of the value, or if it is a
zero and the value is not. -/
theorem declare_frame {k : IntKind} (hk : e.underlying = .integral k)
    (hnew : name ∉ e.constants.names) (value raw : Int128)
    (hapart : ¬Within (e.bits value.val) (e.bits raw.val) ∨
      (k.Congruent value.val 0 ∧ ¬k.Congruent raw.val 0)) :
    e.apply (.constant name value) = .ok (e.declare name value) ∧
    (e.declare name value).nameOf raw.val = e.nameOf raw.val ∧
    (e.declare name value).decompose raw.val = e.decompose raw.val ∧
    ∀ n : Namer, (EnumValue.mk (e.declare name value) raw).literal n
      = (EnumValue.mk e raw).literal n := by
  rw [congruent_zero_iff hk, congruent_zero_iff hk] at hapart
  have hne : e.bits value.val ≠ e.bits raw.val := by
    intro heq
    rcases hapart with hnot | ⟨hzero, hraw⟩
    · exact hnot fun i hi => heq ▸ hi
    · exact hraw (heq ▸ hzero)
  have hpart : ¬e.IsPart value.val raw.val := by
    intro h
    rcases hapart with hnot | ⟨hzero, -⟩
    · exact hnot h.2
    · exact h.1 hzero
  have hname := nameOf_declare hnew hne
  have hparts := decompose_declare hnew hpart
  exact ⟨rfl, hname, hparts, EnumValue.literal_eq_of_agree rfl rfl hname hparts⟩

/-- A flags enum over `int16` whose constants overlap. -/
def borders : EnumType where
  type := .ofName "Borders"
  underlying := .integral .int16
  isFlags := true
  constants := .ofList
    [("Left", ⟨65537, by decide, by decide⟩), ("Sides", ⟨65543, by decide, by decide⟩),
      ("Upper", ⟨65544, by decide, by decide⟩), ("Frame", ⟨65551, by decide, by decide⟩)]

/-- The new constant shares bits with three others and is greater than all of them; and a zero. -/
theorem declare_frame_borders :
    borders.underlying = .integral .int16 ∧ "Lower" ∉ borders.constants.names ∧
    ¬Within (borders.bits 65564) (borders.bits (-65527)) ∧
    (borders.declare "Lower" ⟨65564, by decide, by decide⟩).decompose (-65527)
      = borders.decompose (-65527) ∧
    IntKind.int16.Congruent 131072 0 ∧ ¬IntKind.int16.Congruent (-65527) 0 ∧
    (borders.declare "Lower" ⟨131072, by decide, by decide⟩).decompose (-65527)
      = borders.decompose (-65527) := by
  have hk : borders.underlying = .integral .int16 := rfl
  have hnew : "Lower" ∉ borders.constants.names := by decide +kernel
  have hout : ¬Within (borders.bits 65564) (borders.bits (-65527)) := by
    rw [within_iff_and_eq]
    decide +kernel
  have hzero : IntKind.int16.Congruent 131072 0 := by decide
  have hraw : ¬IntKind.int16.Congruent (-65527) 0 := by decide
  have hlower := declare_frame hk hnew ⟨65564, by decide, by decide⟩
    ⟨-65527, by decide, by decide⟩ (.inl hout)
  have hempty := declare_frame hk hnew ⟨131072, by decide, by decide⟩
    ⟨-65527, by decide, by decide⟩ (.inr ⟨hzero, hraw⟩)
  exact ⟨hk, hnew, hout, hlower.2.2.1, hzero, hraw, hempty.2.2.1⟩

end EnumType

end LiteralForm
