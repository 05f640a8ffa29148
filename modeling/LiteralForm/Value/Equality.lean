/-
Equality of values.

Floating-point numbers compare as numbers, so NaN differs from itself and the two zeros are
equal.  Decimals compare with their scales, the constants of enum declarations in any order, the
raw values of enums as stored, and the fields of structs in order.
-/
import LiteralForm.Value.Basic

namespace LiteralForm.Value

mutual

/-- Whether two values are equal. -/
def equal : Value → Value → Bool
  | null, null => true
  | string s, string t => s == t
  | char c, char d => c == d
  | decimal a, decimal b => a == b
  | float32 x, float32 y => x.numEq y
  | float64 x, float64 y => x.numEq y
  | integral a, integral b => a == b
  | bool a, bool b => a == b
  | enum a, enum b => a.sameAs b
  | type t, type u => t == u
  | method t m, method u n => t == u && m == n
  | struct t fs, struct u gs => t == u && equalFields fs gs
  | unsupported s, unsupported t => s == t
  | _, _ => false

/-- Whether two lists of fields are equal, name by name and value by value. -/
def equalFields : List (String × Value) → List (String × Value) → Bool
  | [], [] => true
  | (m, v) :: fs, (n, w) :: gs => m == n && v.equal w && equalFields fs gs
  | _, _ => false

end

end LiteralForm.Value
