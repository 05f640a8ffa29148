/-
Short names are full names without the namespaces.

* `TypeRef.unqualified`, `Value.unqualified`: a type and a value with every namespace taken out;
* `CSharp.nameOf_unqualified`: the short name of a type is the full name of the type without its
  namespaces;
* `Renderer.render_short`: the same for the code of a value and for what is logged about it, so
  that short code does not depend on any namespace.

Design notes: only the names of types know of namespaces.  Whether a value is zero and the form
of an enum value are the same without them, and the type `object` stays itself.
-/
import LiteralForm.Rendering

namespace LiteralForm

/-! ### Taking out namespaces -/

namespace TypeRef

mutual

/-- The type without namespaces, also inside its generic arguments. -/
def unqualified : TypeRef → TypeRef
  | .primitive p => .primitive p
  | .nullable t => .nullable t.unqualified
  | .array e r => .array e.unqualified r
  | .named _ name args => .named none name (unqualifiedList args)

/-- The types of a list without namespaces. -/
def unqualifiedList : List TypeRef → List TypeRef
  | [] => []
  | t :: ts => t.unqualified :: unqualifiedList ts

end

@[simp] theorem isObject_unqualified (t : TypeRef) : t.unqualified.isObject = t.isObject := by
  cases t <;> rfl

end TypeRef

/-- The declaration with the namespaces taken out of its type. -/
def EnumType.unqualified (e : EnumType) : EnumType := { e with type := e.type.unqualified }

/-- The value of the same number in the declaration without namespaces. -/
def EnumValue.unqualified (v : EnumValue) : EnumValue := { v with type := v.type.unqualified }

namespace Value

mutual

/-- The value without namespaces in the types it mentions, also inside its fields. -/
def unqualified : Value → Value
  | enum e => enum e.unqualified
  | type t => type t.unqualified
  | method t name => method t.unqualified name
  | struct t fields => struct t.unqualified (unqualifiedFields fields)
  | v => v

/-- The fields of a list without namespaces. -/
def unqualifiedFields : List (String × Value) → List (String × Value)
  | [] => []
  | (name, v) :: rest => (name, v.unqualified) :: unqualifiedFields rest

end

end Value

/-! ### Names of types -/

namespace CSharp

mutual

/-- What precedes the rank specifiers is the same, and so are the ranks. -/
theorem chainOf_unqualified (t : TypeRef) :
    (namer true).chainOf t.unqualified = (namer false).chainOf t := by
  match t with
  | .primitive p => rfl
  | .nullable t =>
    rw [TypeRef.unqualified, Namer.chainOf, Namer.chainOf, chainOf_unqualified t]
    rfl
  | .array e r =>
    rw [TypeRef.unqualified, Namer.chainOf, Namer.chainOf, chainOf_unqualified e]
  | .named path name args =>
    rw [TypeRef.unqualified, Namer.chainOf, Namer.chainOf, namesOf_unqualified args]
    rfl

theorem namesOf_unqualified (ts : List TypeRef) :
    (namer true).namesOf (TypeRef.unqualifiedList ts) = (namer false).namesOf ts := by
  match ts with
  | [] => rfl
  | t :: ts =>
    rw [TypeRef.unqualifiedList, Namer.namesOf, Namer.namesOf, chainOf_unqualified t,
      namesOf_unqualified ts]
    rfl

end

/-- A short name is the full name of the type without its namespaces. -/
@[simp] theorem nameOf_unqualified (t : TypeRef) :
    (namer true).nameOf t.unqualified = (namer false).nameOf t := by
  rw [Namer.nameOf, chainOf_unqualified]
  rfl

end CSharp

/-! ### Values -/

/-- The form depends on the constants alone, and not on the name of the type. -/
@[simp] theorem EnumValue.form_unqualified (v : EnumValue) : v.unqualified.form = v.form := rfl

@[simp] theorem EnumValue.literal_unqualified (v : EnumValue) :
    v.unqualified.literal (CSharp.namer true) = v.literal (CSharp.namer false) := by
  rw [literal, literal, form_unqualified]
  show v.form.render _ ((CSharp.namer true).nameOf v.type.type.unqualified) = _
  rw [CSharp.nameOf_unqualified]
  cases v.form <;> rfl

namespace Value

mutual

theorem isZero_unqualified (v : Value) : v.unqualified.isZero = v.isZero := by
  match v with
  | struct t fields => rw [unqualified, isZero, isZero, allZero_unqualified fields]
  | null | string _ | char _ | decimal _ | float32 _ | float64 _ | integral _ | bool _ | enum _
  | type _ | method _ _ | unsupported _ => rfl

theorem allZero_unqualified (fields : List (String × Value)) :
    allZero (unqualifiedFields fields) = allZero fields := by
  match fields with
  | [] => rfl
  | (name, v) :: rest =>
    rw [unqualifiedFields, allZero, allZero, isZero_unqualified v, allZero_unqualified rest]

end

end Value

/-- The default of a type in short is the default of the type without namespaces. -/
theorem defaultExpression_unqualified (t : TypeRef) :
    defaultExpression (CSharp.namer true) t.unqualified
      = defaultExpression (CSharp.namer false) t := by
  rw [defaultExpression, defaultExpression, CSharp.nameOf_unqualified]

namespace Renderer

theorem nullLiteral_unqualified (threshold : UInt64) (declared : Option TypeRef) :
    (csharp ⟨true, threshold⟩).nullLiteral (declared.map TypeRef.unqualified)
      = (csharp ⟨false, threshold⟩).nullLiteral declared := by
  cases declared with
  | none => rfl
  | some t =>
    show (if t.unqualified.isObject then "null"
      else defaultExpression (CSharp.namer true) t.unqualified) = _
    rw [TypeRef.isObject_unqualified, defaultExpression_unqualified]
    rfl

theorem render_unqualified (threshold : UInt64) (declared : Option TypeRef) (v : Value) :
    (csharp ⟨true, threshold⟩).render (declared.map TypeRef.unqualified) v.unqualified
      = (csharp ⟨false, threshold⟩).render declared v := by
  cases v with
  | null => exact congrArg Rendered.quiet (nullLiteral_unqualified threshold declared)
  | enum e =>
    show (⟨some (e.unqualified.literal (CSharp.namer true)), e.unqualified.form.events⟩ : Rendered)
      = _
    rw [EnumValue.literal_unqualified, EnumValue.form_unqualified]
    rfl
  | type t =>
    show Rendered.quiet ("typeof(" ++ (CSharp.namer true).nameOf t.unqualified ++ ")") = _
    rw [CSharp.nameOf_unqualified]
    rfl
  | method t name =>
    show Rendered.quiet ((CSharp.namer true).nameOf t.unqualified ++ "."
      ++ CSharp.naming.safeName name) = _
    rw [CSharp.nameOf_unqualified]
    rfl
  | struct t fields =>
    have hdefault : structDefault? (csharp ⟨true, threshold⟩).namer t.unqualified
        (Value.unqualifiedFields fields)
          = structDefault? (csharp ⟨false, threshold⟩).namer t fields := by
      show structDefault? (CSharp.namer true) _ _ = structDefault? (CSharp.namer false) _ _
      rw [structDefault?, structDefault?, Value.allZero_unqualified, defaultExpression_unqualified]
    rw [Value.unqualified, render, render, hdefault]
  | _ => rfl

/-- Short code is the full code of the value without namespaces, also where there is none, and
so it is the same for all values that differ in namespaces only. -/
theorem render_short (threshold : UInt64) (declared : Option TypeRef) (v : Value) :
    (csharp ⟨false, threshold⟩).render declared v
        = (csharp ⟨true, threshold⟩).render (declared.map TypeRef.unqualified) v.unqualified ∧
      ∀ (declared' : Option TypeRef) (w : Value),
        declared'.map TypeRef.unqualified = declared.map TypeRef.unqualified →
        w.unqualified = v.unqualified →
        (csharp ⟨false, threshold⟩).render declared' w
          = (csharp ⟨false, threshold⟩).render declared v := by
  refine ⟨(render_unqualified threshold declared v).symm, ?_⟩
  intro declared' w hdeclared hw
  rw [← render_unqualified threshold declared' w, hdeclared, hw, render_unqualified]

/-- A default struct with an enum in it, all of whose types are in one namespace. -/
def defaultPair (path : String) : Value :=
  .struct (.named (some path) "Pair" [.qualified path "event"])
    [("First", .enum ⟨.ofType (.qualified path "Color"), ⟨0, by decide, by decide⟩⟩)]

theorem render_short_defaultPair :
    (TypeRef.qualified "App.Core" "Key").unqualified = (TypeRef.ofName "Key").unqualified ∧
      (defaultPair "App.Core").unqualified = (defaultPair "System").unqualified ∧
      (csharp ⟨false, 3⟩).render (some (.qualified "App.Core" "Key")) (defaultPair "App.Core")
        = (csharp ⟨false, 3⟩).render (some (.ofName "Key")) (defaultPair "System") ∧
      (csharp ⟨false, 3⟩).render (some (.ofName "Key")) (defaultPair "System")
        = .quiet "default(Pair<@event>)" := by
  have htype : (TypeRef.qualified "App.Core" "Key").unqualified
      = (TypeRef.ofName "Key").unqualified := rfl
  have hvalue : (defaultPair "App.Core").unqualified = (defaultPair "System").unqualified := rfl
  refine ⟨htype, hvalue, ?_, by decide +kernel⟩
  exact (render_short 3 (some (.ofName "Key")) (defaultPair "System")).2
    (some (.qualified "App.Core" "Key")) (defaultPair "App.Core") (congrArg some htype) hvalue

end Renderer

end LiteralForm
