/-
Types, enum declarations and values as JSON.

A type is an object with one member, whose key is its shape.  A value is an object of its kind
and its content; `null` has no content.  All fields of a record are written, in a fixed order.
-/
import LiteralForm.Decimal.Text
import LiteralForm.Json.Number
import LiteralForm.Value.Basic

namespace LiteralForm

/-- A string, or null. -/
def Json.ofOption (s : Option String) : Json :=
  match s with
  | some s => .ofString s
  | none => .null

namespace TypeRef

mutual

/-- A type as a document. -/
def toJson : TypeRef → Json
  | .primitive p => .ofFields [("primitive", .ofString p.tag)]
  | .nullable t => .ofFields [("nullable", t.toJson)]
  | .array e r =>
    .ofFields [("array", .ofFields [("element", e.toJson), ("rank", .ofInt r.toNat)])]
  | .named path name args =>
    .ofFields [("named", .ofFields
      [("namespace", .ofOption path), ("name", .ofString name),
        ("args", .array (listToJson args))])]

/-- The documents of a list of types. -/
def listToJson : List TypeRef → List Json
  | [] => []
  | t :: ts => t.toJson :: listToJson ts

end

end TypeRef

/-- Constants as an object from names to values. -/
def Constants.toJson (cs : Constants) : Json :=
  .ofFields (cs.entries.map fun e => (e.1, .ofInt e.2.val))

/-- An enum declaration as a document. -/
def EnumType.toJson (e : EnumType) : Json :=
  .ofFields
    [("ty", e.type.toJson), ("underlying", .ofString e.underlying.tag),
      ("is_flags", .bool e.isFlags), ("constants", e.constants.toJson)]

namespace Value

/-- The kind of a value, as documents spell it. -/
def tag : Value → String
  | integral n => n.kind.tag
  | v => v.kind

/-- A kind and its content. -/
def tagged (tag : String) (content : Json) : Json :=
  .ofFields [("kind", .ofString tag), ("value", content)]

mutual

/-- A value as a document. -/
def toJson : Value → Json
  | null => .ofFields [("kind", .ofString "null")]
  | string s => tagged "string" (.ofString s)
  | char c => tagged "char" (.ofString c.toString)
  | decimal d => tagged "decimal" (.ofString d.text)
  | float32 x => tagged "float32" (.ofFloat .single x)
  | float64 x => tagged "float64" (.ofFloat .double x)
  | integral n => tagged n.kind.tag (.ofInt n.value)
  | bool b => tagged "bool" (.bool b)
  | enum e => tagged "enum" (.ofFields [("ty", e.type.toJson), ("raw", .ofInt e.raw.val)])
  | type t => tagged "type" t.toJson
  | method t name =>
    tagged "method" (.ofFields [("declaring_type", t.toJson), ("name", .ofString name)])
  | struct t fields =>
    tagged "struct" (.ofFields [("ty", t.toJson), ("fields", .array (fieldsToJson fields))])
  | unsupported t => tagged "unsupported" (.ofFields [("type_name", .ofString t)])

/-- The documents of a list of fields. -/
def fieldsToJson : List (String × Value) → List Json
  | [] => []
  | (name, v) :: fs =>
    .ofFields [("name", .ofString name), ("value", v.toJson)] :: fieldsToJson fs

end

end Value

end LiteralForm
