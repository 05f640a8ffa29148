/-
Records and integers are read back from documents.

* `keyedMembers?_ofFields`: the members of a record are read back with their keys;
* `wide?_ofInt`, `integral?_ofInt`: integers keep their values and kinds;
* `depth`: the number of brackets that are open at once in the text of a document.
-/
import LiteralForm.Json.Fields
import LiteralForm.Proofs.Json.Document

namespace LiteralForm

/-- A list is read back if each of its elements is. -/
theorem mapM_map_eq_some {α β : Type} {write : α → β} {read? : β → Option α} {xs : List α}
    (h : ∀ x ∈ xs, read? (write x) = some x) : (xs.map write).mapM read? = some xs := by
  induction xs with
  | nil => rfl
  | cons x xs ih =>
    rw [List.forall_mem_cons] at h
    rw [List.map_cons, List.mapM_cons, h.1, ih h.2]
    rfl

namespace Json

/-! ### Records -/

theorem keyedMembers?_ofFields (fs : List (String × Json)) :
    keyedMembers? (fs.map fun f => (some f.1, f.2)) = some fs :=
  mapM_map_eq_some fun _ _ => rfl

@[simp] theorem wellFormed_ofFields {fs : List (String × Json)} :
    WellFormed (ofFields fs) ↔ ∀ f ∈ fs, WellFormed f.2 := by
  constructor
  · intro h f hf
    cases h with
    | object _ h => exact h (some f.1, f.2) (List.mem_map_of_mem hf)
  · intro h
    refine .object ?_ ?_
    · intro m hm
      obtain ⟨f, -, rfl⟩ := List.mem_map.mp hm
      rfl
    · intro m hm
      obtain ⟨f, hf, rfl⟩ := List.mem_map.mp hm
      exact h f hf

theorem text?_ofString (s : String) : (ofString s).text? = some s := rfl

@[simp] theorem wellFormed_ofString (s : String) : WellFormed (ofString s) := .string s

/-! ### Integers -/

@[simp] theorem wellFormed_ofInt (n : Int) : WellFormed (ofInt n) :=
  .number (Numeral.isJson_ofInt n)

theorem wide?_ofInt (n : Int128) : (ofInt n.val).wide? = some n := by
  rw [ofInt, wide?, Numeral.integer?_ofInt, Option.bind_some, Int128.ofInt?,
    dif_pos ⟨n.lower, n.upper⟩]

theorem integral?_ofInt (n : Integral) : (ofInt n.value).integral? n.kind = some n := by
  rw [ofInt, integral?, Numeral.isNegativeZero_ofInt, if_neg Bool.false_ne_true,
    Numeral.integer?_ofInt, Option.bind_some, Integral.ofInt?, dif_pos n.inRange]

/-! ### Depth -/

mutual

/-- The number of brackets of a document that are open at once. -/
def depth : Json → Nat
  | array items => itemsDepth items + 1
  | object members => membersDepth members + 1
  | _ => 0

/-- The greatest depth of the documents of a list. -/
def itemsDepth : List Json → Nat
  | [] => 0
  | j :: js => max j.depth (itemsDepth js)

/-- The greatest depth of the members of an object. -/
def membersDepth : List (Option String × Json) → Nat
  | [] => 0
  | (_, j) :: ms => max j.depth (membersDepth ms)

end

@[simp] theorem depth_ofString (s : String) : (ofString s).depth = 0 := rfl

@[simp] theorem depth_array (items : List Json) : (array items).depth = itemsDepth items + 1 := rfl

theorem depth_ofFields_pos (fs : List (String × Json)) : 0 < (ofFields fs).depth := Nat.succ_pos _

@[simp] theorem depth_ofFields_nil : (ofFields []).depth = 1 := rfl

@[simp] theorem depth_ofFields_cons (f : String × Json) (fs : List (String × Json)) :
    (ofFields (f :: fs)).depth = max (f.2.depth + 1) (ofFields fs).depth := by
  show max f.2.depth (membersDepth (fs.map fun f => (some f.1, f.2))) + 1
    = max (f.2.depth + 1) (membersDepth (fs.map fun f => (some f.1, f.2)) + 1)
  omega

end Json

end LiteralForm
