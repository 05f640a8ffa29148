/-
Names of types as source text.

A `Namer` says how each shape of a type is written; `nameOf` walks a reference and puts the
pieces together.  A chain of nested arrays is handed over at once, with its ranks outermost
first, because languages differ in the order in which they write them.

* `nameOf_array`: the name of an array is that of its innermost element under the whole
  list of ranks;
* `Namer.neutral` writes the neutral names, and an array of rank two as `Array2<…>`.

Design notes: the walk returns the name of the core together with the ranks above it, so it
is structural in the reference although it looks at several levels of arrays at once.
-/
import LiteralForm.Type.Basic

namespace LiteralForm

/-- A name with its rendered generic arguments, `List<int, string>`. -/
def genericName (name : String) (args : List String) : String :=
  if args.isEmpty then name else name ++ "<" ++ String.intercalate ", " args ++ ">"

/-- The way a language writes types and the members of types. -/
structure Namer where
  /-- A built-in type. -/
  primitive : Primitive → String
  /-- The nullable form of a rendered type. -/
  nullable : String → String
  /-- A chain of arrays over a rendered element, ranks outermost first. -/
  array : String → List UInt8 → String
  /-- A named type with its namespace and its rendered arguments. -/
  named : Option String → String → List String → String
  /-- A member, such as an enum constant or a method. -/
  member : String → String

namespace Namer

/-- Writes the arrays that stand over a rendered core, if there are any. -/
def closeArrays (n : Namer) : String × List UInt8 → String
  | (element, []) => element
  | (element, ranks) => n.array element ranks

mutual

/-- The rendered core of a reference and the ranks of the arrays above it. -/
def chainOf (n : Namer) : TypeRef → String × List UInt8
  | .primitive p => (n.primitive p, [])
  | .nullable t => (n.nullable (n.closeArrays (n.chainOf t)), [])
  | .array e r =>
    -- Only the ranks grow; the core is rendered once, at the foot of the chain.
    let (core, ranks) := n.chainOf e
    (core, r :: ranks)
  | .named path name args => (n.named path name (n.namesOf args), [])

/-- The names of a list of references. -/
def namesOf (n : Namer) : List TypeRef → List String
  | [] => []
  | t :: ts => n.closeArrays (n.chainOf t) :: n.namesOf ts

end

/-- The name of a type. -/
def nameOf (n : Namer) (t : TypeRef) : String := n.closeArrays (n.chainOf t)

theorem namesOf_eq_map (n : Namer) (ts : List TypeRef) : n.namesOf ts = ts.map n.nameOf := by
  induction ts with
  | nil => rfl
  | cons t ts ih => simp [namesOf, nameOf, ih]

theorem nameOf_primitive (n : Namer) (p : Primitive) :
    n.nameOf (.primitive p) = n.primitive p := rfl

theorem nameOf_nullable (n : Namer) (t : TypeRef) :
    n.nameOf (.nullable t) = n.nullable (n.nameOf t) := rfl

theorem nameOf_named (n : Namer) (path : Option String) (name : String) (args : List TypeRef) :
    n.nameOf (.named path name args) = n.named path name (args.map n.nameOf) := by
  simp [nameOf, chainOf, closeArrays, namesOf_eq_map]

theorem chainOf_snd (n : Namer) (t : TypeRef) : (n.chainOf t).2 = t.ranks := by
  cases t with
  | array e r => simp [chainOf, TypeRef.ranks, chainOf_snd n e]
  | _ => rfl

theorem chainOf_fst (n : Namer) (t : TypeRef) : (n.chainOf t).1 = n.nameOf t.core := by
  cases t with
  | array e r => simpa [chainOf, TypeRef.core] using chainOf_fst n e
  | _ => rfl

/-- An array hands its core and all ranks of its chain to `array` at once. -/
theorem nameOf_array (n : Namer) (e : TypeRef) (r : UInt8) :
    n.nameOf (.array e r) = n.array (n.nameOf e.core) (r :: e.ranks) := by
  simp [nameOf, chainOf, closeArrays, chainOf_fst, chainOf_snd]

/-- Neutral names: `Nullable<x>`, `Array2<x>`, no namespaces and no escapes. -/
def neutral : Namer where
  primitive := Primitive.name
  nullable inner := "Nullable<" ++ inner ++ ">"
  array element ranks :=
    ranks.foldr (fun r inner => "Array" ++ toString r.toNat ++ "<" ++ inner ++ ">") element
  named _ name args := genericName name args
  member := id

end Namer

end LiteralForm
