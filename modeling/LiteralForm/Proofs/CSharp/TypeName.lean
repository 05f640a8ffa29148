/-
Names of types are unambiguous.

* `EndsUniquely`: at the end of a text that leaves off where a name may begin, the name of a type
  can be read in only one way; `endsUniquely_nullable`, `endsUniquely_named_cons` and the others
  prove it shape by shape;
* `nameOf_injective`: types with one name in full are equal.

Design notes: specifiers of arrays stand in the order from the outermost to the innermost array,
so a chain is read as a whole, down to its core.  Hence the induction is on the core of a type.
-/
import LiteralForm.Proofs.CSharp.NameText

namespace LiteralForm.CSharp

/-! ### One reading for each shape -/

/-- At the end of a text that leaves off where a name may begin, the name of the type is the name
of no other type. -/
def EndsUniquely (t : TypeRef) : Prop :=
  ∀ ⦃u : TypeRef⦄ ⦃x y : List Char⦄, Spellable u → Opens x → Opens y →
    x ++ nameText true t = y ++ nameText true u → x = y ∧ t = u

theorem closing_ne_bracket (t : TypeRef) : closing t.core ≠ some ']' := by
  induction t using TypeRef.core.induct with
  | case1 e r ih => exact ih
  | case2 t ht =>
    cases t with
    | named path name args => cases args <;> nofun
    | array e r => exact absurd rfl (ht e r)
    | _ => nofun

theorem bracket_notMem_getLast? {t : TypeRef} (ht : Spellable t) (x : List Char) :
    ']' ∉ (x ++ nameText true t.core).getLast? := by
  obtain ⟨init, c, hinit, hc⟩ := exists_nameText_concat true ht.core
  rw [hinit, ← List.append_assoc, List.getLast?_concat]
  rintro ⟨⟩
  exact closing_ne_bracket t hc

/-- A chain of arrays is read down to its core. -/
theorem EndsUniquely.of_core {t : TypeRef} (ht : Spellable t) (h : EndsUniquely t.core) :
    EndsUniquely t := by
  intro u x y hu hx hy heq
  rw [nameText_eq true t, nameText_eq true u, ← List.append_assoc, ← List.append_assoc] at heq
  obtain ⟨hcore, hranks⟩ := specifiers_injective (bracket_notMem_getLast? ht x)
    (bracket_notMem_getLast? hu y) ht.ranks hu.ranks heq
  obtain ⟨rfl, htu⟩ := h hu.core hx hy hcore
  refine ⟨rfl, ?_⟩
  rw [← TypeRef.ofRanks_core_ranks t, ← TypeRef.ofRanks_core_ranks u, htu, hranks]

theorem endsUniquely_primitive (p : Primitive) : EndsUniquely (.primitive p) := by
  intro u x y hu hx hy heq
  have hclosing := closing_eq_of_append_eq true (.primitive p) hu heq
  cases hu with
  | primitive q =>
    obtain ⟨rfl, hkey⟩ := append_headText_injective hx hy (isHeadChar_of_mem_keyword p)
      (isHeadChar_of_mem_keyword q) heq
    rw [keyword_injective (String.toList_inj.mp hkey)]
    exact ⟨rfl, rfl⟩
  | @named path name args qualifier identifier arguments =>
    cases args with
    | nil =>
      rw [nameText_named_nil] at heq
      obtain ⟨-, hkey⟩ := append_headText_injective hx hy (isHeadChar_of_mem_keyword p)
        (isHeadChar_of_mem_headText true qualifier identifier) heq
      exact absurd hkey (keyword_ne_headText p path name)
    | cons v us => cases hclosing
  | _ => cases hclosing

theorem endsUniquely_nullable {t : TypeRef} (ht : Spellable t) (h : EndsUniquely t) :
    EndsUniquely (.nullable t) := by
  intro u x y hu hx hy heq
  have hclosing := closing_eq_of_append_eq true (.nullable ht) hu heq
  cases hu with
  | @nullable v inner =>
    rw [nameText_nullable, nameText_nullable, ← List.append_assoc, ← List.append_assoc,
      List.append_cancel_right_eq] at heq
    obtain ⟨rfl, rfl⟩ := h inner hx hy heq
    exact ⟨rfl, rfl⟩
  | @named path name args qualifier identifier arguments => cases args <;> cases hclosing
  | _ => cases hclosing

/-- Arguments are read from the last one to the first, which an opening bracket precedes. -/
theorem arguments_injective {t u : TypeRef} {ts us : List TypeRef} {x y : List Char}
    (ht : ∀ v ∈ t :: ts, EndsUniquely v) (hu : ∀ v ∈ u :: us, Spellable v)
    (h : x ++ ['<'] ++ nameText true t ++ furtherArguments true ts
      = y ++ ['<'] ++ nameText true u ++ furtherArguments true us) :
    x = y ∧ t :: ts = u :: us := by
  have hless : ∀ z, Opens (z ++ ['<']) := opens_concat rfl
  have hspace : ∀ z, Opens (z ++ [' ']) := opens_concat rfl
  -- The first argument follows the bracket, every other one the space of a separator.
  have hne : ∀ z w : List Char, z ++ ['<'] ≠ w ++ [' '] := by
    intro z w he
    cases (List.append_inj' he rfl).2
  induction ts using List.reverseRecOn generalizing us with
  | nil =>
    have hfirst : EndsUniquely t := ht t List.mem_cons_self
    rw [furtherArguments_nil, List.append_nil] at h
    cases us using List.reverseRecOn with
    | nil =>
      rw [furtherArguments_nil, List.append_nil] at h
      obtain ⟨hxy, rfl⟩ := hfirst (hu u List.mem_cons_self) (hless x) (hless y) h
      exact ⟨List.append_cancel_right hxy, rfl⟩
    | append_singleton us v _ =>
      simp only [furtherArguments_concat, ← List.append_assoc] at h
      obtain ⟨hxy, -⟩ := hfirst (hu v (by simp)) (hless x) (hspace _) h
      exact absurd hxy (hne _ _)
  | append_singleton ts v ih =>
    have hlast : EndsUniquely v := ht v (by simp)
    simp only [furtherArguments_concat, ← List.append_assoc] at h
    cases us using List.reverseRecOn with
    | nil =>
      rw [furtherArguments_nil, List.append_nil] at h
      obtain ⟨hxy, -⟩ := hlast (hu u List.mem_cons_self) (hspace _) (hless y) h
      exact absurd hxy.symm (hne _ _)
    | append_singleton us w _ =>
      simp only [furtherArguments_concat, ← List.append_assoc] at h
      obtain ⟨hxy, rfl⟩ := hlast (hu w (by simp)) (hspace _) (hspace _) h
      simp only [List.append_cancel_right_eq] at hxy
      obtain ⟨rfl, hlist⟩ := ih (fun z hz => ht z (List.mem_append_left [v] hz))
        (fun z hz => hu z (List.mem_append_left [v] hz)) hxy
      exact ⟨rfl, congrArg (· ++ [v]) hlist⟩

theorem endsUniquely_named_nil {path : Option String} {name : String}
    (hpath : ∀ p ∈ path, IsPath p) (hname : IsIdentifier name) :
    EndsUniquely (.named path name []) := by
  intro u x y hu hx hy heq
  have hclosing := closing_eq_of_append_eq true (.named hpath hname (List.forall_mem_nil _)) hu heq
  have hhead := isHeadChar_of_mem_headText true hpath hname
  rw [nameText_named_nil] at heq
  cases hu with
  | primitive q =>
    obtain ⟨-, hkey⟩ := append_headText_injective hx hy hhead (isHeadChar_of_mem_keyword q) heq
    exact absurd hkey.symm (keyword_ne_headText q path name)
  | @named path' name' args' hpath' hname' hargs' =>
    cases args' with
    | nil =>
      rw [nameText_named_nil] at heq
      obtain ⟨rfl, htext⟩ := append_headText_injective hx hy hhead
        (isHeadChar_of_mem_headText true hpath' hname') heq
      obtain ⟨rfl, rfl⟩ := headText_injective hname hname' htext
      exact ⟨rfl, rfl⟩
    | cons v us => cases hclosing
  | _ => cases hclosing

theorem endsUniquely_named_cons {path : Option String} {name : String} {t : TypeRef}
    {ts : List TypeRef} (hpath : ∀ p ∈ path, IsPath p) (hname : IsIdentifier name)
    (hspell : ∀ v ∈ t :: ts, Spellable v) (hargs : ∀ v ∈ t :: ts, EndsUniquely v) :
    EndsUniquely (.named path name (t :: ts)) := by
  intro u x y hu hx hy heq
  have hclosing := closing_eq_of_append_eq true (.named hpath hname hspell) hu heq
  cases hu with
  | @named path' name' args' hpath' hname' hargs' =>
    cases args' with
    | nil => cases hclosing
    | cons v us =>
      simp only [nameText_named_cons, ← List.append_assoc, List.append_cancel_right_eq] at heq
      obtain ⟨hfront, hlist⟩ := arguments_injective (x := x ++ headText true path name)
        (y := y ++ headText true path' name') hargs hargs' (by simpa using heq)
      obtain ⟨rfl, htext⟩ := append_headText_injective hx hy
        (isHeadChar_of_mem_headText true hpath hname)
        (isHeadChar_of_mem_headText true hpath' hname') hfront
      obtain ⟨rfl, rfl⟩ := headText_injective hname hname' htext
      exact ⟨rfl, by rw [hlist]⟩
  | _ => cases hclosing

/-! ### The name determines the type -/

theorem endsUniquely_core {t : TypeRef} (h : Spellable t) : EndsUniquely t.core := by
  induction h with
  | primitive p => exact endsUniquely_primitive p
  | nullable inner ih =>
    -- What the question mark follows may be a chain of arrays again.
    exact endsUniquely_nullable inner (EndsUniquely.of_core inner ih)
  | array rank element ih => exact ih
  | @named path name args qualifier identifier arguments ih =>
    have hargs : ∀ t ∈ args, EndsUniquely t := fun t ht =>
      EndsUniquely.of_core (arguments t ht) (ih t ht)
    cases args with
    | nil => exact endsUniquely_named_nil qualifier identifier
    | cons t ts => exact endsUniquely_named_cons qualifier identifier arguments hargs

/-- Types with the same name in full are equal, whatever nullables, arrays of any ranks and generic
arguments they are made of. -/
theorem nameOf_injective {t u : TypeRef} (ht : Spellable t) (hu : Spellable u)
    (h : (namer true).nameOf t = (namer true).nameOf u) : t = u := by
  have hopens : Opens [] := nofun
  have hend : EndsUniquely t := EndsUniquely.of_core ht (endsUniquely_core ht)
  exact (hend hu hopens hopens (congrArg String.toList h)).2

/-- A nullable type that has the name of a built-in type, with a rank specifier among its
arguments. -/
def nullableKeyword : TypeRef :=
  .nullable (.named (some "App.Core") "int"
    [.primitive (.integral .int32), .array (.ofName "Map") 3])

theorem spellable_nullableKeyword : Spellable nullableKeyword := by
  have hpath : IsPath "App.Core" :=
    ⟨["App", "Core"], List.cons_ne_nil _ _, by decide +kernel, by decide +kernel⟩
  have hmap : Spellable (.array (.ofName "Map") 3) :=
    .array (by decide) (.named nofun (by decide +kernel) nofun)
  refine .nullable (.named ?_ (by decide +kernel) ?_)
  · rintro p ⟨⟩
    exact hpath
  · simp only [List.forall_mem_cons]
    exact ⟨.primitive _, hmap, nofun⟩

theorem nameOf_injective_jagged :
    Spellable (.ofRanks nullableKeyword [1, 2]) ∧
    Spellable (.arrayOf (.arrayOfRank nullableKeyword 2)) ∧
    (namer true).nameOf (.ofRanks nullableKeyword [1, 2])
      = "App.Core.@int<int, Map[,,]>?[][,]" ∧
    (namer true).nameOf (.arrayOf (.arrayOfRank nullableKeyword 2))
      = "App.Core.@int<int, Map[,,]>?[][,]" ∧
    TypeRef.ofRanks nullableKeyword [1, 2] = .arrayOf (.arrayOfRank nullableKeyword 2) := by
  have hchain : Spellable (.ofRanks nullableKeyword [1, 2]) :=
    .array (by decide) (.array (by decide) spellable_nullableKeyword)
  have hnested : Spellable (.arrayOf (.arrayOfRank nullableKeyword 2)) :=
    .array (by decide) (.array (by decide) spellable_nullableKeyword)
  have hname : (namer true).nameOf (.ofRanks nullableKeyword [1, 2])
      = "App.Core.@int<int, Map[,,]>?[][,]" := by decide +kernel
  have hname' : (namer true).nameOf (.arrayOf (.arrayOfRank nullableKeyword 2))
      = "App.Core.@int<int, Map[,,]>?[][,]" := by decide +kernel
  exact ⟨hchain, hnested, hname, hname', nameOf_injective hchain hnested (hname.trans hname'.symm)⟩

end LiteralForm.CSharp
