/-
Enum declarations and enum values.

A declaration lists named constants in order.  Their values may be wider than the underlying
type; two values are the same constant when they agree in the bits of that type.

* `EnumType.bits` is the pattern of a value at the underlying width, `normalize` the value of
  the underlying range with that pattern;
* `Constants.set` declares a name or, if it is known, replaces its value in place;
* `EnumStep` is one step of building a declaration.

Design notes: the names of `Constants` are distinct by construction, so a list of entries serves
as an ordered map.  An underlying type that is not integral can be read from a document, and
has 128 bits with a sign.
-/
import LiteralForm.Entries
import LiteralForm.Type.Basic

namespace LiteralForm

/-! Powers of natural numbers are the built-in ones, whatever else is imported. -/
attribute [local instance (2000)] instPowNat

/-! ### Constants -/

/-- Named values in the order of their first declaration. -/
structure Constants where
  entries : List (String × Int128)
  distinct : (entries.map Prod.fst).Nodup
  deriving DecidableEq

namespace Constants

/-- No constants. -/
def empty : Constants := ⟨[], List.nodup_nil⟩

/-- The names in order of declaration. -/
def names (cs : Constants) : List String := cs.entries.map Prod.fst

/-- The value of a name. -/
def get? (cs : Constants) (name : String) : Option Int128 := Entries.find? name cs.entries

/-- Declares a name, or replaces the value of a known name in place. -/
def set (cs : Constants) (name : String) (value : Int128) : Constants :=
  if h : name ∈ cs.names then
    ⟨Entries.replace name value cs.entries, by
      rw [Entries.map_fst_replace]
      exact cs.distinct⟩
  else ⟨cs.entries ++ [(name, value)], Entries.nodup_append_entry cs.distinct h value⟩

/-- The constants of a list of declarations, one after another. -/
def ofList (ds : List (String × Int128)) : Constants :=
  ds.foldl (fun cs d => cs.set d.1 d.2) empty

/-- The same names with the same values, in any order. -/
def sameMap (a b : Constants) : Bool :=
  a.entries.length == b.entries.length && a.entries.all fun e => b.get? e.1 == some e.2

end Constants

/-! ### Declarations -/

/-- The declaration of an enum type. -/
structure EnumType where
  type : TypeRef
  underlying : Primitive
  isFlags : Bool
  constants : Constants
  deriving DecidableEq

namespace EnumType

/-- A declaration without constants, over `int32`. -/
def ofType (type : TypeRef) : EnumType := ⟨type, .integral .int32, false, .empty⟩

/-- The number of bits that tell constants apart. -/
def width (e : EnumType) : Nat :=
  match e.underlying.intKind? with
  | some k => k.width
  | none => Int128.width

/-- The bit pattern of a value, cut to the underlying width. -/
def bits (e : EnumType) (raw : Int) : Nat := (raw % (2 ^ e.width : Nat)).toNat

/-- The value with the same bits in the range of the underlying type. -/
def normalize (e : EnumType) (raw : Int) : Int :=
  match e.underlying.intKind? with
  | some k => k.wrap raw
  | none => Int.bmod raw (2 ^ Int128.width)

/-- The first declared constant with the same bits. -/
def nameOf (e : EnumType) (raw : Int) : Option String :=
  (e.constants.entries.find? fun c => e.bits c.2.val == e.bits raw).map Prod.fst

/-- The value of a constant. -/
def valueOf (e : EnumType) (name : String) : Option Int128 := e.constants.get? name

/-- Equality that disregards the order of the constants. -/
def sameAs (a b : EnumType) : Bool :=
  a.type == b.type && a.underlying == b.underlying && a.isFlags == b.isFlags
    && a.constants.sameMap b.constants

end EnumType

/-! ### Building a declaration -/

/-- One step of building a declaration. -/
inductive EnumStep
  /-- Values are meant to be combined bit by bit. -/
  | flags
  /-- The underlying type. -/
  | underlying (type : Primitive)
  /-- A named constant. -/
  | constant (name : String) (value : Int128)
  deriving DecidableEq

/-- The reason why a step is refused. -/
inductive EnumError
  /-- The underlying type is not one of the integral types. -/
  | underlyingNotIntegral
  deriving DecidableEq, Repr

/-- The wording of an error. -/
def EnumError.message : EnumError → String
  | underlyingNotIntegral => "enum underlying type must be integral"

namespace EnumType

/-- Takes one step. -/
def apply (e : EnumType) : EnumStep → Except EnumError EnumType
  | .flags => .ok { e with isFlags := true }
  | .underlying p =>
    if p.intKind?.isSome then .ok { e with underlying := p } else .error .underlyingNotIntegral
  | .constant name value => .ok { e with constants := e.constants.set name value }

end EnumType

/-! ### Values -/

/-- A value of an enum type, which need not be one of its constants. -/
structure EnumValue where
  type : EnumType
  raw : Int128
  deriving DecidableEq

namespace EnumValue

/-- The value of a declared constant. -/
def named? (e : EnumType) (name : String) : Option EnumValue :=
  (e.valueOf name).map fun raw => ⟨e, raw⟩

/-- Whether all bits of the value are zero. -/
def isZero (v : EnumValue) : Bool := v.type.bits v.raw.val == 0

/-- Equality that disregards the order of the constants. -/
def sameAs (a b : EnumValue) : Bool := a.type.sameAs b.type && a.raw == b.raw

end EnumValue

end LiteralForm
