/-
Enum declarations after a run of steps.

`EnumType.build` takes steps one after another, and a step that is refused changes nothing.  What
comes out is described by the steps alone, in whatever order they were taken:

* `EnumStep.names` and `EnumStep.value?`: the names in order of their first declaration, and the
  value of the last declaration of a name;
* `EnumStep.kind`: the integral kind of the last step that set one;
* `builtBy_build`: a declaration has these constants over this kind, and finds the first name
  with the pattern of a value at the width of this kind.

Design notes: one step keeps `Tracks` (`Tracks.advance`), and the look-ups follow from it for the
declaration at the end.  A name keeps its place when its value is replaced, so the names are the
declared ones without later repetitions.
-/
import LiteralForm.Proofs.Enum.Bits
import LiteralForm.Proofs.Enum.Constants
import Mathlib.Data.List.Find
import Mathlib.Data.List.Induction

namespace LiteralForm

/-! ### What steps say -/

namespace EnumStep

/-- The constant that a step declares. -/
def constant? : EnumStep → Option (String × Int128)
  | constant name value => some (name, value)
  | _ => none

/-- The integral kind that a step sets. -/
def kind? : EnumStep → Option IntKind
  | underlying (.integral k) => some k
  | _ => none

/-- The constants that steps declare, with repeated names. -/
def declarations (steps : List EnumStep) : List (String × Int128) := steps.filterMap constant?

/-- The declared names in the order of their first declaration. -/
def names (steps : List EnumStep) : List String :=
  ((declarations steps).map Prod.fst).eraseDups

/-- The value that the last declaration of a name gives it. -/
def value? (steps : List EnumStep) (name : String) : Option Int128 :=
  (declarations steps).reverse.lookup name

/-- The last integral kind that steps set, or `int32`. -/
def kind (steps : List EnumStep) : IntKind := (steps.filterMap kind?).getLast?.getD .int32

end EnumStep

namespace EnumType

/-- Takes a step; one that is refused leaves the declaration as it was. -/
def advance (e : EnumType) (s : EnumStep) : EnumType := (e.apply s).toOption.getD e

/-- The declaration of a type after a run of steps. -/
def build (t : TypeRef) (steps : List EnumStep) : EnumType := steps.foldl advance (ofType t)

/-- A declaration has the type, and all that the steps set. -/
structure Tracks (e : EnumType) (t : TypeRef) (steps : List EnumStep) : Prop where
  type : e.type = t
  isFlags : e.isFlags = true ↔ .flags ∈ steps
  underlying : e.underlying = .integral (EnumStep.kind steps)
  names : e.constants.names = EnumStep.names steps
  valueOf : ∀ name, e.valueOf name = EnumStep.value? steps name

/-- A declaration is described by the type and the steps: its constants are the declared names
with their last values, and a value is called by the first name with its pattern. -/
structure BuiltBy (e : EnumType) (t : TypeRef) (steps : List EnumStep) : Prop
    extends e.Tracks t steps where
  constants : e.constants.entries.map (fun c => (c.1, some c.2))
    = (EnumStep.names steps).map fun name => (name, EnumStep.value? steps name)
  nameOf : ∀ raw, e.nameOf raw = (EnumStep.names steps).find? fun name =>
    (EnumStep.value? steps name).any fun value => (EnumStep.kind steps).Congruent value.val raw
  nameOf_valueOf : ∀ name ∈ EnumStep.names steps, ∃ value first,
    e.valueOf name = some value ∧ e.nameOf value.val = some first ∧
      (EnumStep.names steps).idxOf first ≤ (EnumStep.names steps).idxOf name

end EnumType

/-! ### One more step -/

theorem eraseDups_concat {α : Type} [BEq α] [LawfulBEq α] (xs : List α) (x : α) :
    (xs ++ [x]).eraseDups = if x ∈ xs then xs.eraseDups else xs.eraseDups ++ [x] := by
  rw [List.eraseDups_append, List.removeAll]
  by_cases h : x ∈ xs <;> simp [h, List.eraseDups_cons]

namespace EnumStep

variable (steps : List EnumStep) (s : EnumStep)

theorem names_concat (name : String) (value : Int128) :
    names (steps ++ [.constant name value])
      = if name ∈ names steps then names steps else names steps ++ [name] := by
  have hdecl : declarations (steps ++ [.constant name value])
      = declarations steps ++ [(name, value)] := List.filterMap_append
  simp only [names, hdecl, List.map_append, List.map_singleton, eraseDups_concat,
    List.mem_eraseDups]

theorem value?_concat (name : String) (value : Int128) (n : String) :
    value? (steps ++ [.constant name value]) n
      = if n = name then some value else value? steps n := by
  have hdecl : declarations (steps ++ [.constant name value])
      = declarations steps ++ [(name, value)] := List.filterMap_append
  rw [value?, hdecl, List.reverse_append, List.reverse_singleton, List.singleton_append,
    List.lookup_cons, value?]
  by_cases h : n = name
  · subst h
    simp
  · simp [h, beq_false_of_ne h]

variable {s}

theorem declarations_concat (h : s.constant? = none) :
    declarations (steps ++ [s]) = declarations steps := by
  simp [declarations, h]

theorem kind_concat (h : s.kind? = none) : kind (steps ++ [s]) = kind steps := by
  simp [kind, h]

theorem kind_concat_underlying (k : IntKind) :
    kind (steps ++ [.underlying (.integral k)]) = k := by
  simp [kind, kind?]

end EnumStep

namespace EnumType

/-- Only a step to a type that is not integral is refused. -/
theorem apply_eq_error_iff {e : EnumType} {s : EnumStep} {err : EnumError} :
    e.apply s = .error err
      ↔ err = .underlyingNotIntegral ∧ ∃ p, s = .underlying p ∧ ∀ k, p ≠ .integral k := by
  cases s with
  | flags => simp [apply]
  | constant name value => simp [apply]
  | underlying p =>
    cases p <;> simp [apply, Primitive.intKind?, eq_comm]

variable {e : EnumType} {t : TypeRef} {steps : List EnumStep}

/-- A step that declares no constant leaves the constants as they were. -/
theorem Tracks.of_constants_eq {e' : EnumType} {s : EnumStep} (h : e.Tracks t steps)
    (hs : s.constant? = none) (htype : e'.type = e.type) (hconstants : e'.constants = e.constants)
    (hflags : e'.isFlags = true ↔ .flags ∈ steps ++ [s])
    (hkind : e'.underlying = .integral (EnumStep.kind (steps ++ [s]))) :
    e'.Tracks t (steps ++ [s]) where
  type := htype.trans h.type
  isFlags := hflags
  underlying := hkind
  names := by
    rw [hconstants, h.names, EnumStep.names, EnumStep.names, EnumStep.declarations_concat steps hs]
  valueOf name := by
    rw [EnumType.valueOf, hconstants, EnumStep.value?, EnumStep.declarations_concat steps hs]
    exact h.valueOf name

/-- What the steps set is kept up by one more step. -/
theorem Tracks.advance (h : e.Tracks t steps) (s : EnumStep) :
    (e.advance s).Tracks t (steps ++ [s]) := by
  cases s with
  | flags =>
    refine h.of_constants_eq rfl rfl rfl ?_ ?_
    · exact iff_of_true rfl (List.mem_append_right _ (List.mem_singleton_self _))
    · rw [EnumStep.kind_concat steps rfl]
      exact h.underlying
  | constant name value =>
    constructor
    case type => exact h.type
    case isFlags =>
      show e.isFlags = true ↔ _
      simpa using h.isFlags
    case underlying =>
      rw [EnumStep.kind_concat steps rfl]
      exact h.underlying
    case names =>
      rw [EnumStep.names_concat, ← h.names]
      exact e.constants.names_set name value
    case valueOf =>
      intro n
      rw [EnumStep.value?_concat, ← h.valueOf]
      exact e.constants.get?_set name value n
  | underlying p =>
    have hflags : ∀ q, e.isFlags = true ↔ .flags ∈ steps ++ [.underlying q] := by
      intro q
      simpa using h.isFlags
    cases p with
    | integral k =>
      refine h.of_constants_eq rfl rfl rfl (hflags _) ?_
      rw [EnumStep.kind_concat_underlying]
      rfl
    | _ =>
      -- The step is refused, and it sets no integral kind.
      refine h.of_constants_eq rfl rfl rfl (hflags _) ?_
      rw [EnumStep.kind_concat steps rfl]
      exact h.underlying

theorem tracks_build (t : TypeRef) (steps : List EnumStep) : (build t steps).Tracks t steps := by
  induction steps using List.reverseRecOn with
  | nil => exact ⟨rfl, by simp [build, ofType], rfl, rfl, fun _ => rfl⟩
  | append_singleton steps s ih =>
    rw [build, List.foldl_append, List.foldl_cons, List.foldl_nil]
    exact ih.advance s

/-! ### The finished declaration -/

/-- The first element with a property stands no later than any other one with it. -/
theorem idxOf_le_of_find? {α : Type} [DecidableEq α] {p : α → Bool} {xs : List α} {x y : α}
    (hfind : xs.find? p = some x) (hy : p y = true) : xs.idxOf x ≤ xs.idxOf y := by
  obtain ⟨hx, before, after, rfl, hbefore⟩ := List.find?_eq_some_iff_append.mp hfind
  have hnot : ∀ z, p z = true → z ∉ before := by
    intro z hz hmem
    have := hbefore z hmem
    simp [hz] at this
  rw [List.idxOf_append_of_notMem (hnot x hx), List.idxOf_append_of_notMem (hnot y hy),
    List.idxOf_cons_self]
  omega

theorem Tracks.constants_eq (h : e.Tracks t steps) :
    e.constants.entries.map (fun c => (c.1, some c.2))
      = (EnumStep.names steps).map fun name => (name, EnumStep.value? steps name) := by
  rw [← h.names, Constants.names, List.map_map]
  refine List.map_congr_left fun c hc => ?_
  show (c.1, some c.2) = (c.1, EnumStep.value? steps c.1)
  rw [← h.valueOf, EnumType.valueOf, Constants.get?_of_mem hc]

theorem Tracks.nameOf_eq (h : e.Tracks t steps) (raw : Int) :
    e.nameOf raw = (EnumStep.names steps).find? fun name =>
      (EnumStep.value? steps name).any fun value =>
        (EnumStep.kind steps).Congruent value.val raw := by
  rw [← h.names, Constants.names, List.find?_map, nameOf]
  congr 1
  refine List.find?_congr fun c hc => ?_
  show _ = (EnumStep.value? steps c.1).any _
  rw [← h.valueOf, EnumType.valueOf, Constants.get?_of_mem hc, Option.any_some]
  rw [Bool.eq_iff_iff, beq_iff_eq, decide_eq_true_eq, bits_eq_bits_iff_congruent h.underlying]

/-- The value of a declared name is called by that name or by one declared before it. -/
theorem Tracks.exists_first (h : e.Tracks t steps) {name : String}
    (hname : name ∈ EnumStep.names steps) : ∃ value first,
      e.valueOf name = some value ∧ e.nameOf value.val = some first ∧
        (EnumStep.names steps).idxOf first ≤ (EnumStep.names steps).idxOf name := by
  obtain ⟨c, hc, rfl⟩ : ∃ c ∈ e.constants.entries, c.1 = name := by
    rw [← h.names] at hname
    exact List.mem_map.mp hname
  have hvalue : e.valueOf c.1 = some c.2 := Constants.get?_of_mem hc
  have hfind := h.nameOf_eq c.2.val
  set own : String → Bool := fun name => (EnumStep.value? steps name).any fun value =>
    (EnumStep.kind steps).Congruent value.val c.2.val
  have hown : own c.1 = true := by
    show (EnumStep.value? steps c.1).any _ = true
    rw [← h.valueOf, hvalue, Option.any_some, decide_eq_true_eq]
    exact Int.ModEq.refl _
  obtain ⟨first, hfirst⟩ : ∃ first, (EnumStep.names steps).find? own = some first :=
    Option.isSome_iff_exists.mp (List.find?_isSome.mpr ⟨c.1, hname, hown⟩)
  exact ⟨c.2, first, hvalue, hfind.trans hfirst, idxOf_le_of_find? hfirst hown⟩

/-- Whatever steps are taken, the declaration at the end is the one that they describe, and only
steps to a type that is not integral are refused. -/
theorem builtBy_build (t : TypeRef) (steps : List EnumStep) :
    (∀ (e : EnumType) (s : EnumStep) (err : EnumError), e.apply s = .error err
      ↔ err = .underlyingNotIntegral ∧ ∃ p, s = .underlying p ∧ ∀ k, p ≠ .integral k) ∧
    (build t steps).BuiltBy t steps := by
  have h := tracks_build t steps
  exact ⟨fun _ _ _ => apply_eq_error_iff, h, h.constants_eq, h.nameOf_eq, fun _ => h.exists_first⟩

end EnumType

end LiteralForm
