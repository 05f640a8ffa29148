/-
Names of types, one level at a time.

A namer is handed a whole chain of arrays at once, while a reader thinks of an array as something
over its element.

* `Namer.Wraps`: the namer writes a chain by wrapping the element once for each rank;
* `Namer.levelName`: the name of a type by plain recursion on its shape, for such a namer;
* `CSharp.nameOf_ofRanks`: what C# writes for a chain is its innermost element and then the rank
  specifiers, outermost first, so a further array is written in the middle;
* `Namer.nameOf_array_levels`: both ways to add one more array to a type.
-/
import LiteralForm.CSharp.TypeName

namespace LiteralForm

/-! ### Chains over an innermost element -/

namespace TypeRef

variable {b : TypeRef}

theorem core_ofRanks (hb : ∀ e q, b ≠ .array e q) (rs : List UInt8) : (ofRanks b rs).core = b := by
  induction rs with
  | nil =>
    cases b with
    | array e q => exact absurd rfl (hb e q)
    | _ => rfl
  | cons r rs ih => exact ih

theorem ranks_ofRanks (hb : ∀ e q, b ≠ .array e q) (rs : List UInt8) :
    (ofRanks b rs).ranks = rs := by
  induction rs with
  | nil =>
    cases b with
    | array e q => exact absurd rfl (hb e q)
    | _ => rfl
  | cons r rs ih => exact congrArg (r :: ·) ih

end TypeRef

/-! ### Namers that wrap -/

namespace Namer

/-- The namer writes a chain of arrays by wrapping the name of the element once for each rank, so
that the outermost rank comes last. -/
structure Wraps (n : Namer) (wrap : UInt8 → String → String) : Prop where
  nil (element : String) : n.array element [] = element
  cons (element : String) (r : UInt8) (rs : List UInt8) :
    n.array element (r :: rs) = wrap r (n.array element rs)

mutual

/-- The name of a type, written level by level. -/
def levelName (n : Namer) (wrap : UInt8 → String → String) : TypeRef → String
  | .primitive p => n.primitive p
  | .nullable t => n.nullable (n.levelName wrap t)
  | .array e r => wrap r (n.levelName wrap e)
  | .named path name args => n.named path name (n.levelNames wrap args)

/-- The names of a list of types, written level by level. -/
def levelNames (n : Namer) (wrap : UInt8 → String → String) : List TypeRef → List String
  | [] => []
  | t :: ts => n.levelName wrap t :: n.levelNames wrap ts

end

variable {n : Namer} {wrap : UInt8 → String → String}

/-- The name of a type is that of its core under all its ranks, also if there are none. -/
theorem Wraps.array_core (h : n.Wraps wrap) (t : TypeRef) :
    n.array (n.nameOf t.core) t.ranks = n.nameOf t := by
  cases t with
  | array e r => exact (n.nameOf_array e r).symm
  | _ => exact h.nil _

theorem Wraps.nameOf_array (h : n.Wraps wrap) (t : TypeRef) (r : UInt8) :
    n.nameOf (.array t r) = wrap r (n.nameOf t) := by
  rw [Namer.nameOf_array, h.cons, h.array_core]

mutual

theorem Wraps.nameOf_eq (h : n.Wraps wrap) (t : TypeRef) : n.nameOf t = n.levelName wrap t := by
  match t with
  | .primitive p => rfl
  | .nullable t => rw [nameOf_nullable, levelName, h.nameOf_eq t]
  | .array e r => rw [h.nameOf_array, levelName, h.nameOf_eq e]
  | .named path name args => rw [nameOf_named, levelName, h.map_nameOf args]

theorem Wraps.map_nameOf (h : n.Wraps wrap) (ts : List TypeRef) :
    ts.map n.nameOf = n.levelNames wrap ts := by
  match ts with
  | [] => rfl
  | t :: ts => rw [List.map_cons, levelNames, h.nameOf_eq t, h.map_nameOf ts]

end

theorem wraps_neutral :
    neutral.Wraps fun r name => "Array" ++ toString r.toNat ++ "<" ++ name ++ ">" :=
  ⟨fun _ => rfl, fun _ _ _ => rfl⟩

end Namer

/-! ### Rank specifiers -/

namespace CSharp

theorem nameOf_ofRanks (full : Bool) {b : TypeRef} (hb : ∀ e q, b ≠ .array e q)
    (rs : List UInt8) : (namer full).nameOf (.ofRanks b rs)
      = (namer full).nameOf b ++ String.join (rs.map rankSpecifier) := by
  cases rs with
  | nil => exact String.append_empty.symm
  | cons r rs =>
    show (namer full).nameOf (.array (.ofRanks b rs) r) = _
    rw [Namer.nameOf_array, TypeRef.core_ofRanks hb, TypeRef.ranks_ofRanks hb]
    rfl

/-- A rank of zero is written like a rank of one. -/
theorem rankSpecifier_eq (r : UInt8) :
    rankSpecifier r = "[" ++ String.ofList (List.replicate (max r.toNat 1 - 1) ',') ++ "]" := by
  rw [rankSpecifier, show r.toNat - 1 = max r.toNat 1 - 1 by omega]

end CSharp

/-- An array is named by wrapping the name of its element, at every level and inside nullable types
and generic arguments as well.  C# instead puts the specifier of a further array in front of those
that the chain has, behind the name of the innermost element. -/
theorem Namer.nameOf_array_levels :
    (∀ (n : Namer) (wrap : UInt8 → String → String), n.Wraps wrap →
      (∀ t, n.nameOf t = n.levelName wrap t) ∧
      ∀ t r, n.nameOf (.array t r) = wrap r (n.nameOf t)) ∧
    ∀ (full : Bool) (b : TypeRef) (rs : List UInt8), (∀ e q, b ≠ .array e q) →
      ∃ w, (CSharp.namer full).nameOf (.ofRanks b rs) = (CSharp.namer full).nameOf b ++ w ∧
        ∀ r, (CSharp.namer full).nameOf (.array (.ofRanks b rs) r) = (CSharp.namer full).nameOf b
          ++ ("[" ++ String.ofList (List.replicate (max r.toNat 1 - 1) ',') ++ "]") ++ w := by
  constructor
  · intro n wrap h
    exact ⟨h.nameOf_eq, h.nameOf_array⟩
  · intro full b rs hb
    refine ⟨String.join (rs.map CSharp.rankSpecifier), CSharp.nameOf_ofRanks full hb rs, ?_⟩
    intro r
    have hchain := CSharp.nameOf_ofRanks full hb (r :: rs)
    rw [List.map_cons, String.join_cons, CSharp.rankSpecifier_eq, ← String.append_assoc] at hchain
    exact hchain

/-- A nullable type with arrays on both sides of a generic type. -/
def TypeRef.jaggedList : TypeRef :=
  .nullable (.arrayOf (.named none "List" [.arrayOfRank (.primitive (.integral .int32)) 2]))

theorem Namer.nameOf_array_levels_jaggedList :
    (neutral.Wraps fun r name => "Array" ++ toString r.toNat ++ "<" ++ name ++ ">") ∧
    neutral.nameOf (.array .jaggedList 3)
      = "Array3<Nullable<Array1<List<Array2<int32>>>>>" ∧
    (∀ e q, TypeRef.jaggedList ≠ .array e q) ∧
    ∃ w, (CSharp.namer false).nameOf (.ofRanks .jaggedList [1, 0]) = "List<int[,]>[]?" ++ w ∧
      (CSharp.namer false).nameOf (.array (.ofRanks .jaggedList [1, 0]) 3)
        = "List<int[,]>[]?" ++ "[,,]" ++ w := by
  have hcore : ∀ e q, TypeRef.jaggedList ≠ .array e q := nofun
  obtain ⟨hwraps, hspecifiers⟩ := nameOf_array_levels
  obtain ⟨w, hchain, harray⟩ := hspecifiers false .jaggedList [1, 0] hcore
  have hname : (CSharp.namer false).nameOf .jaggedList = "List<int[,]>[]?" := by decide +kernel
  rw [hname] at hchain
  refine ⟨wraps_neutral, ?_, hcore, w, hchain, ?_⟩
  · exact ((hwraps neutral _ wraps_neutral).2 .jaggedList 3).trans (by decide +kernel)
  · rw [harray 3, hname]
    rfl

end LiteralForm
