/-
Types, enum declarations and values from JSON.

The inverse of the encoding, with some freedom for the writer: fields in any order, unknown
fields, defaults for missing ones, records as arrays.  A value may have its content before its
kind; the content is then kept until the kind is known.  Only the content of an unsupported value
has to be an object.
-/
import LiteralForm.Decimal.Text
import LiteralForm.Json.Fields
import LiteralForm.Json.Reader
import LiteralForm.Value.Basic

namespace LiteralForm

/-- The number of brackets that may be open at once. -/
def Json.maxDepth : Nat := 127

/-- Reads the items of an array. -/
def Json.items? {α : Type} (item? : Json → Option α) : Json → Option (List α)
  | .array items => items.mapM item?
  | _ => none

/-- Reads a field that has a default value. -/
def Json.fieldD {α : Type} (read? : Json → Option α) (default : α) : Option Json → Option α
  | some j => read? j
  | none => some default

/-- A built-in type from a document. -/
def Primitive.ofJson? (kept : Bool) (room : Nat) (j : Json) : Option Primitive :=
  (j.tag? kept room).bind Primitive.ofTag?

/-- The rank of an array from a document. -/
def Json.rank? (j : Json) : Option UInt8 :=
  (j.integral? .byte).map fun n => UInt8.ofNat n.value.toNat

/-- A namespace from a document: a string, or null for none. -/
def Json.path? : Json → Option (Option String)
  | .null => some none
  | .string s => s.map some
  | _ => none

namespace TypeRef

/-- A type from a document. -/
def ofJson? (kept : Bool) : Nat → Json → Option TypeRef
  | room + 1, .object [(some "primitive", j)] => (Primitive.ofJson? kept room j).map .primitive
  | room + 1, .object [(some "nullable", j)] => (ofJson? kept room j).map .nullable
  | room + 2, .object [(some "array", j)] =>
    match j.fields? ["element", "rank"] with
    | some [some e, some r] =>
      match ofJson? kept room e, r.rank? with
      | some e, some r => some (.array e r)
      | _, _ => none
    | _ => none
  | room + 2, .object [(some "named", j)] =>
    match j.fields? ["namespace", "name", "args"] with
    | some [path, some name, args] =>
      match Json.fieldD Json.path? none path, name.text?,
        args with
      | some path, some name, none => some (.named path name [])
      | some path, some name, some args =>
        match room with
        | 0 => none
        | room + 1 => (args.items? (ofJson? kept room)).map (.named path name)
      | _, _, _ => none
    | _ => none
  | _, _ => none

end TypeRef

/-- Constants from a document: an object from names to integers. -/
def Constants.ofJson? (room : Nat) : Json → Option Constants
  | .object members =>
    if room = 0 then none
    else
      ((Json.keyedMembers? members).bind fun ms =>
        ms.mapM fun m => m.2.wide?.map fun v => (m.1, v)).map Constants.ofList
  | _ => none

/-- An enum declaration from a document. -/
def EnumType.ofJson? (room : Nat) (j : Json) : Option EnumType :=
  match room, j.fields? ["ty", "underlying", "is_flags", "constants"] with
  | room + 1, some [some type, underlying, isFlags, constants] =>
    match TypeRef.ofJson? false room type,
      Json.fieldD (Primitive.ofJson? false room) (.integral .int32) underlying,
      Json.fieldD Json.bool? false isFlags,
      Json.fieldD (Constants.ofJson? room) .empty constants with
    | some type, some underlying, some isFlags, some constants =>
      some ⟨type, underlying, isFlags, constants⟩
    | _, _, _, _ => none
  | _, _ => none

/-- An enum value from a document.  A part that had to be kept cannot hold one. -/
def EnumValue.ofJson? (kept : Bool) (room : Nat) (j : Json) : Option EnumValue :=
  match kept, room, j.fields? ["ty", "raw"] with
  | false, room + 1, some [some type, some raw] =>
    match EnumType.ofJson? room type, raw.wide? with
    | some type, some raw => some ⟨type, raw⟩
    | _, _ => none
  | _, _, _ => none

/-- The only character of a text. -/
def Json.char? (j : Json) : Option Char :=
  match j.text?.map String.toList with
  | some [c] => some c
  | _ => none

/-- A decimal number from a document. -/
def Decimal.ofJson? (j : Json) : Option Decimal := j.text?.bind fun s => (Decimal.parse s).toOption

/-- The number of a document. -/
def Json.number? : Json → Option Numeral
  | .number n => some n
  | _ => none

namespace Value

/-- The kinds whose content holds no other values. -/
def simpleOfJson? (kept : Bool) (room : Nat) (kind : String) (content : Json) : Option Value :=
  match kind with
  | "string" => content.text?.map .string
  | "char" => content.char?.map .char
  | "decimal" => (Decimal.ofJson? content).map .decimal
  | "float32" => (content.number?.bind Numeral.toSingle?).map .float32
  | "float64" => (content.number?.bind Numeral.toDouble?).map .float64
  | "bool" => content.bool?.map .bool
  | "enum" => (EnumValue.ofJson? kept room content).map .enum
  | "type" => (TypeRef.ofJson? kept room content).map .type
  | "method" =>
    match room, content.fields? ["declaring_type", "name"] with
    | room + 1, some [some t, some name] =>
      match TypeRef.ofJson? kept room t, name.text? with
      | some t, some name => some (.method t name)
      | _, _ => none
    | _, _ => none
  | "unsupported" =>
    match room, content.namedFields? ["type_name"] with
    | _ + 1, some [some name] => name.text?.map .unsupported
    | _, _ => none
  | kind =>
    (IntKind.all.find? fun k => k.tag == kind).bind fun k => (content.integral? k).map .integral

/-- The tags of all kinds, in their order. -/
def tags : List String :=
  ["null", "string", "char", "decimal", "float32", "float64"] ++ IntKind.all.map IntKind.tag
    ++ ["bool", "enum", "type", "method", "struct", "unsupported"]

/-- The tag and the content of a value, and whether the content comes first. -/
structure Parts where
  tag : String
  content : Option Json
  isContentFirst : Bool

/-- Takes a value apart. -/
def parts? (kept : Bool) (room : Nat) : Json → Option Parts
  | .array [kind, content] =>
    (kind.plainTag? kept tags).map fun tag => ⟨tag, some content, false⟩
  | .object members =>
    (Json.keyedMembers? members).bind fun ms =>
      match Json.uniqueMember? ms "kind", Json.uniqueMember? ms "value" with
      | some (some kind), some content =>
        let known := ms.map Prod.fst |>.filter fun k => k == "kind" || k == "value"
        (kind.tag? kept room).map fun tag => ⟨tag, content, known.head? == some "value"⟩
      | _, _ => none
  | _ => none

mutual

/-- A value from a document. -/
def ofJson? : Bool → Nat → Json → Option Value
  | _, 0, _ => none
  | kept, room + 1, j =>
    match parts? kept room j with
    | none => none
    | some ⟨tag, content, isContentFirst⟩ =>
      -- A content that comes before the kind is kept, with all that is in it.
      let keptContent := kept || isContentFirst
      let isRefused := isContentFirst && !(content.map (Json.isSound room)).getD true
      match tag, content, isRefused with
      -- The kind without content accepts null only, and null can always be kept.
      | "null", none, _ => some .null
      | "null", some .null, _ => some .null
      | "struct", some content, false => structOfJson? keptContent room content
      | tag, some content, false => simpleOfJson? keptContent room tag content
      | _, _, _ => none

/-- A struct from the content of its value. -/
def structOfJson? : Bool → Nat → Json → Option Value
  | _, 0, _ => none
  | kept, room + 1, j =>
    match j.fields? ["ty", "fields"] with
    | some [some t, fields] =>
      match TypeRef.ofJson? kept room t, fields with
      | some t, none => some (.struct t [])
      | some t, some fields => (fieldsOfJson? kept room fields).map (.struct t)
      | none, _ => none
    | _ => none

/-- The fields of a struct from their array. -/
def fieldsOfJson? : Bool → Nat → Json → Option (List (String × Value))
  | _, 0, _ => none
  | kept, room + 1, j => j.items? (fieldOfJson? kept room)

/-- A field of a struct from a document. -/
def fieldOfJson? : Bool → Nat → Json → Option (String × Value)
  | _, 0, _ => none
  | kept, room + 1, j =>
    match j.fields? ["name", "value"] with
    | some [some name, some value] =>
      match name.text?, ofJson? kept room value with
      | some name, some value => some (name, value)
      | _, _ => none
    | _ => none

end

end Value

/-! ### Whole texts -/

/-- The type that a text describes. -/
def TypeRef.parseJson? (s : String) : Option TypeRef :=
  (Json.parse s).bind (TypeRef.ofJson? false Json.maxDepth)

/-- The enum declaration that a text describes. -/
def EnumType.parseJson? (s : String) : Option EnumType :=
  (Json.parse s).bind (EnumType.ofJson? Json.maxDepth)

/-- The decimal number that a text describes. -/
def Decimal.parseJson? (s : String) : Option Decimal := (Json.parse s).bind Decimal.ofJson?

/-- The value that a text describes. -/
def Value.parseJson? (s : String) : Option Value :=
  (Json.parse s).bind (Value.ofJson? false Json.maxDepth)

end LiteralForm
