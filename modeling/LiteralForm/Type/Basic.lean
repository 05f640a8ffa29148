/-
References to types of a described program.

A reference is a built-in type, a nullable or array form of another reference, or a named
type with generic arguments.  An array keeps its element type inside: `array (array int 2) 1`
is an array of two-dimensional arrays.  `ranks` and `core` take such a chain apart, and
`ofRanks` puts it together again (`ofRanks_core_ranks`).

Equality is decidable; the instance walks two references side by side.
-/
import LiteralForm.Type.Primitive

namespace LiteralForm

/-- A reference to a type. -/
inductive TypeRef
  | primitive (type : Primitive)
  | nullable (inner : TypeRef)
  | array (element : TypeRef) (rank : UInt8)
  | named (path : Option String) (name : String) (args : List TypeRef)
  deriving Repr

namespace TypeRef

/-- The universal object type. -/
def object : TypeRef := .primitive .object

/-- Whether the reference is the universal object type. -/
def isObject : TypeRef → Bool
  | .primitive .object => true
  | _ => false

/-- A one-dimensional array. -/
def arrayOf (element : TypeRef) : TypeRef := .array element 1

/-- An array of the given rank, which is at least one. -/
def arrayOfRank (element : TypeRef) (rank : UInt8) : TypeRef :=
  .array element (if rank = 0 then 1 else rank)

/-- A named type outside every namespace. -/
def ofName (name : String) : TypeRef := .named none name []

/-- A named type inside a namespace. -/
def qualified (path name : String) : TypeRef := .named (some path) name []

/-- Appends generic arguments to a named type; the other forms take none. -/
def withArgs (more : List TypeRef) : TypeRef → TypeRef
  | .named path name args => .named path name (args ++ more)
  | t => t

/-! ### Chains of arrays -/

/-- The ranks of the arrays at the head of a reference, outermost first. -/
def ranks : TypeRef → List UInt8
  | .array e r => r :: ranks e
  | _ => []

/-- What remains of a reference once the arrays at its head are taken off. -/
def core : TypeRef → TypeRef
  | .array e _ => core e
  | t => t

/-- The chain of arrays with the given ranks, outermost first, over a type. -/
def ofRanks (t : TypeRef) (rs : List UInt8) : TypeRef :=
  rs.foldr (fun r e => .array e r) t

theorem ofRanks_core_ranks (t : TypeRef) : ofRanks t.core t.ranks = t := by
  cases t with
  | array e r => simpa [core, ranks, ofRanks] using ofRanks_core_ranks e
  | _ => rfl

/-! ### Equality -/

mutual

/-- Decides whether two references are equal. -/
def decEq : (a b : TypeRef) → Decidable (a = b)
  | .primitive p, .primitive q =>
    if h : p = q then isTrue (h ▸ rfl) else isFalse fun e => h (by cases e; rfl)
  | .nullable a, .nullable b =>
    match decEq a b with
    | isTrue h => isTrue (h ▸ rfl)
    | isFalse h => isFalse fun e => h (by cases e; rfl)
  | .array a r, .array b s =>
    if hr : r = s then
      match decEq a b with
      | isTrue h => isTrue (h ▸ hr ▸ rfl)
      | isFalse h => isFalse fun e => h (by cases e; rfl)
    else isFalse fun e => hr (by cases e; rfl)
  | .named p n as, .named q m bs =>
    if hp : p = q then
      if hn : n = m then
        match decEqList as bs with
        | isTrue h => isTrue (h ▸ hn ▸ hp ▸ rfl)
        | isFalse h => isFalse fun e => h (by cases e; rfl)
      else isFalse fun e => hn (by cases e; rfl)
    else isFalse fun e => hp (by cases e; rfl)
  | .primitive _, .nullable _ | .primitive _, .array .. | .primitive _, .named ..
  | .nullable _, .primitive _ | .nullable _, .array .. | .nullable _, .named ..
  | .array .., .primitive _ | .array .., .nullable _ | .array .., .named ..
  | .named .., .primitive _ | .named .., .nullable _ | .named .., .array .. =>
    isFalse fun e => by cases e

/-- Decides whether two lists of references are equal. -/
def decEqList : (as bs : List TypeRef) → Decidable (as = bs)
  | [], [] => isTrue rfl
  | a :: as, b :: bs =>
    match decEq a b with
    | isTrue h =>
      match decEqList as bs with
      | isTrue hs => isTrue (h ▸ hs ▸ rfl)
      | isFalse hs => isFalse fun e => hs (by cases e; rfl)
    | isFalse h => isFalse fun e => h (by cases e; rfl)
  | [], _ :: _ => isFalse fun e => by cases e
  | _ :: _, [] => isFalse fun e => by cases e

end

instance : DecidableEq TypeRef := decEq

end TypeRef

end LiteralForm
