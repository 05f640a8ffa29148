/-
Types, enum declarations and the contents of values are read back from documents.

* `TypeRef.ofJson?_toJson`, `EnumType.ofJson?_toJson`, `EnumValue.ofJson?_toJson`: what is written
  as a document is read from it, where brackets may be opened as deep as the document needs;
* `Value.simpleOfJson?_content`: the content of a value of a plain kind is read back by its kind;
* `Value.ofJson?_oriented`: a value is read by its kind, whichever of its two members comes first.

Design notes: `room` and `depth` count the same brackets, one by one, so a reader never runs out
of room in a document that fits.  All but enum values are read in the same way from a part that is
kept.
-/
import LiteralForm.Json.Decode
import LiteralForm.Json.Encode
import LiteralForm.Proofs.Decimal.Text
import LiteralForm.Proofs.Enum.Constants
import LiteralForm.Proofs.Json.Fields

namespace LiteralForm

open Json (WellFormed)

/-! ### Types -/

theorem Primitive.ofJson?_tag (kept : Bool) (room : Nat) (p : Primitive) :
    Primitive.ofJson? kept room (.ofString p.tag) = some p := ofTag?_tag p

theorem Json.rank?_ofInt (r : UInt8) : (Json.ofInt r.toNat).rank? = some r := by
  have hr : IntKind.byte.InRange r.toNat := by
    have hlt := r.toNat_lt
    exact ⟨Int.natCast_nonneg _, by change (r.toNat : Int) ≤ 255; omega⟩
  show ((Json.ofInt r.toNat).integral? .byte).map _ = _
  rw [Json.integral?_ofInt ⟨.byte, r.toNat, hr⟩, Option.map_some]
  show some (UInt8.ofNat r.toNat) = some r
  rw [UInt8.ofNat_toNat]

theorem Json.wellFormed_ofOption (s : Option String) : WellFormed (Json.ofOption s) := by
  cases s with
  | none => exact .null
  | some s => exact .string s

namespace TypeRef

mutual

theorem wellFormed_toJson (t : TypeRef) : WellFormed t.toJson := by
  match t with
  | .primitive p => simp [toJson]
  | .nullable t => simp [toJson, wellFormed_toJson t]
  | .array e r => simp [toJson, wellFormed_toJson e]
  | .named path name args =>
    have hargs := WellFormed.array (wellFormed_listToJson args)
    simp [toJson, Json.wellFormed_ofOption path, hargs]

theorem wellFormed_listToJson (ts : List TypeRef) : ∀ j ∈ listToJson ts, WellFormed j := by
  match ts with
  | [] => exact nofun
  | t :: ts =>
    exact List.forall_mem_cons.mpr ⟨wellFormed_toJson t, wellFormed_listToJson ts⟩

end

variable (kept : Bool)

mutual

/-- A type is read back from its document. -/
theorem ofJson?_toJson (t : TypeRef) {room : Nat} (h : t.toJson.depth ≤ room) :
    ofJson? kept room t.toJson = some t := by
  match t with
  | .primitive p =>
    simp only [toJson, Json.depth_ofFields_cons] at h
    obtain ⟨n, rfl⟩ : ∃ n, room = n + 1 := ⟨room - 1, by omega⟩
    show (Primitive.ofJson? kept n (.ofString p.tag)).map primitive = _
    rw [Primitive.ofJson?_tag, Option.map_some]
  | .nullable t =>
    simp only [toJson, Json.depth_ofFields_cons] at h
    obtain ⟨n, rfl⟩ : ∃ n, room = n + 1 := ⟨room - 1, by omega⟩
    show (ofJson? kept n t.toJson).map nullable = _
    rw [ofJson?_toJson t (by omega), Option.map_some]
  | .array e r =>
    simp only [toJson, Json.depth_ofFields_cons] at h
    obtain ⟨n, rfl⟩ : ∃ n, room = n + 2 := ⟨room - 2, by omega⟩
    have he := ofJson?_toJson e (show e.toJson.depth ≤ n by omega)
    have hfields : (Json.ofFields [("element", e.toJson), ("rank", .ofInt r.toNat)]).fields?
        ["element", "rank"] = some [some e.toJson, some (.ofInt r.toNat)] := rfl
    rw [toJson, Json.ofFields, List.map_cons, List.map_nil]
    simp only [ofJson?, hfields, he, Json.rank?_ofInt]
  | .named path name args =>
    simp only [toJson, Json.depth_ofFields_cons, Json.depth_array] at h
    obtain ⟨n, rfl⟩ : ∃ n, room = n + 3 := ⟨room - 3, by omega⟩
    have hargs := mapM_listToJson args (show Json.itemsDepth (listToJson args) ≤ n by omega)
    have hread : ofJson? kept (n + 3) (named path name args).toJson
        = ((listToJson args).mapM (ofJson? kept n)).map (named path name) := by
      cases path <;> rfl
    rw [hread, hargs, Option.map_some]

theorem mapM_listToJson (ts : List TypeRef) {room : Nat}
    (h : Json.itemsDepth (listToJson ts) ≤ room) :
    (listToJson ts).mapM (ofJson? kept room) = some ts := by
  match ts with
  | [] => rfl
  | t :: ts =>
    rw [listToJson, Json.itemsDepth] at h
    rw [listToJson, List.mapM_cons, ofJson?_toJson t (by omega), mapM_listToJson ts (by omega)]
    rfl

end

end TypeRef

/-! ### Enum declarations -/

namespace Constants

theorem ofJson?_toJson (cs : Constants) {room : Nat} (h : 0 < room) :
    ofJson? room cs.toJson = some cs := by
  have hread : (cs.entries.map fun e => (e.1, Json.ofInt e.2.val)).mapM
      (fun m => m.2.wide?.map fun v => (m.1, v)) = some cs.entries := by
    refine mapM_map_eq_some fun e _ => ?_
    show (Json.ofInt e.2.val).wide?.map _ = _
    rw [Json.wide?_ofInt, Option.map_some]
  rw [toJson, Json.ofFields, ofJson?, if_neg (by omega), Json.keyedMembers?_ofFields,
    Option.bind_some, hread, Option.map_some, ofList_entries]

theorem wellFormed_toJson (cs : Constants) : WellFormed cs.toJson := by
  rw [toJson, Json.wellFormed_ofFields]
  intro f hf
  obtain ⟨e, -, rfl⟩ := List.mem_map.mp hf
  exact Json.wellFormed_ofInt e.2.val

end Constants

namespace EnumType

theorem wellFormed_toJson (e : EnumType) : WellFormed e.toJson := by
  simp [toJson, e.type.wellFormed_toJson, e.constants.wellFormed_toJson, WellFormed.bool]

/-- A declaration is read back from its document. -/
theorem ofJson?_toJson (e : EnumType) {room : Nat} (h : e.toJson.depth ≤ room) :
    ofJson? room e.toJson = some e := by
  simp only [toJson, Json.depth_ofFields_cons] at h
  obtain ⟨n, rfl⟩ : ∃ n, room = n + 1 := ⟨room - 1, by omega⟩
  have hpos : 0 < e.constants.toJson.depth := Json.depth_ofFields_pos _
  have htype := TypeRef.ofJson?_toJson false e.type (show e.type.toJson.depth ≤ n by omega)
  have hconstants := e.constants.ofJson?_toJson (show 0 < n by omega)
  have hfields : e.toJson.fields? ["ty", "underlying", "is_flags", "constants"]
      = some [some e.type.toJson, some (.ofString e.underlying.tag), some (.bool e.isFlags),
        some e.constants.toJson] := rfl
  simp only [ofJson?, hfields, htype, Json.fieldD, Primitive.ofJson?_tag, Json.bool?, hconstants]

end EnumType

/-- An enum value is read back from its document. -/
theorem EnumValue.ofJson?_toJson (v : EnumValue) {room : Nat} (h : v.type.toJson.depth < room) :
    ofJson? false room (.ofFields [("ty", v.type.toJson), ("raw", .ofInt v.raw.val)]) = some v := by
  obtain ⟨n, rfl⟩ : ∃ n, room = n + 1 := ⟨room - 1, by omega⟩
  have htype := v.type.ofJson?_toJson (show v.type.toJson.depth ≤ n by omega)
  have hfields : (Json.ofFields [("ty", v.type.toJson), ("raw", .ofInt v.raw.val)]).fields?
      ["ty", "raw"] = some [some v.type.toJson, some (.ofInt v.raw.val)] := rfl
  simp only [ofJson?, hfields, htype, Json.wide?_ofInt]

/-- No enum value is read from a part that is kept. -/
theorem EnumValue.ofJson?_kept (room : Nat) (j : Json) : EnumValue.ofJson? true room j = none := by
  rw [ofJson?]
  rintro _ _ _ ⟨⟩

/-! ### Contents of values -/

theorem IntKind.find?_tag (k : IntKind) : IntKind.all.find? (fun l => l.tag == k.tag) = some k := by
  cases k <;> decide

theorem Json.char?_toString (c : Char) : (Json.ofString c.toString).char? = some c := by
  simp only [Json.char?, Json.text?_ofString, Option.map_some, Char.toString,
    String.toList_singleton]

theorem Decimal.ofJson?_text (d : Decimal) : Decimal.ofJson? (.ofString d.text) = some d := by
  show (Decimal.parse d.text).toOption = some d
  rw [Decimal.parse_text]
  rfl

namespace Value

mutual

/-- Whether the value is no floating-point number and has none in its fields, at any depth. -/
def isFloatFree : Value → Bool
  | float32 _ | float64 _ => false
  | struct _ fields => areFloatFree fields
  | _ => true

/-- Whether no field holds a floating-point number. -/
def areFloatFree : List (String × Value) → Bool
  | [] => true
  | (_, v) :: fs => v.isFloatFree && areFloatFree fs

end

/-- What is written behind the kind of a value. -/
def content : Value → Json
  | null => .null
  | string s => .ofString s
  | char c => .ofString c.toString
  | decimal d => .ofString d.text
  | float32 x => .ofFloat .single x
  | float64 x => .ofFloat .double x
  | integral n => .ofInt n.value
  | bool b => .bool b
  | enum e => .ofFields [("ty", e.type.toJson), ("raw", .ofInt e.raw.val)]
  | type t => t.toJson
  | method t name => .ofFields [("declaring_type", t.toJson), ("name", .ofString name)]
  | struct t fields => .ofFields [("ty", t.toJson), ("fields", .array (fieldsToJson fields))]
  | unsupported t => .ofFields [("type_name", .ofString t)]

theorem toJson_eq_tagged {v : Value} (h : v ≠ null) : v.toJson = tagged v.tag v.content := by
  cases v with
  | null => exact absurd rfl h
  | _ => rfl

theorem depth_tagged (tag : String) (content : Json) :
    (tagged tag content).depth = content.depth + 1 := by
  simp only [tagged, Json.depth_ofFields_cons, Json.depth_ofFields_nil, Json.depth_ofString]
  omega

/-- Whether the value has a content, and one without other values, wide integers and floating-point
numbers. -/
def isPlain : Value → Bool
  | null | float32 _ | float64 _ | enum _ | struct .. => false
  | _ => true

theorem tag_ne_of_isPlain {v : Value} (h : v.isPlain = true) :
    v.tag ≠ "null" ∧ v.tag ≠ "struct" := by
  cases v with
  | integral n => rw [tag]; cases n.kind <;> decide
  | null | float32 _ | float64 _ | enum _ | struct _ _ => cases h
  | _ => simp [tag, kind]

theorem simpleOfJson?_integral (kept : Bool) (room : Nat) (n : Integral) :
    simpleOfJson? kept room n.kind.tag (.ofInt n.value) = some (integral n) := by
  have hread : simpleOfJson? kept room n.kind.tag (.ofInt n.value)
      = (IntKind.all.find? fun k => k.tag == n.kind.tag).bind fun k =>
        ((Json.ofInt n.value).integral? k).map integral := by
    cases n.kind <;> rfl
  rw [hread, IntKind.find?_tag, Option.bind_some, Json.integral?_ofInt, Option.map_some]

/-- The content of a value of a plain kind is read back by its kind, also from a kept part. -/
theorem simpleOfJson?_content {v : Value} (hv : v.isPlain = true) (kept : Bool) {room : Nat}
    (h : v.content.depth ≤ room) : simpleOfJson? kept room v.tag v.content = some v := by
  cases v with
  | null | float32 _ | float64 _ | enum _ | struct _ _ => cases hv
  | string s => rfl
  | bool b => rfl
  | char c =>
    show (Json.ofString c.toString).char?.map char = _
    rw [Json.char?_toString, Option.map_some]
  | decimal d =>
    show (Decimal.ofJson? (.ofString d.text)).map decimal = _
    rw [Decimal.ofJson?_text, Option.map_some]
  | integral n => exact simpleOfJson?_integral kept room n
  | type t =>
    show (TypeRef.ofJson? kept room t.toJson).map type = _
    rw [TypeRef.ofJson?_toJson kept t h, Option.map_some]
  | method t name =>
    simp only [content, Json.depth_ofFields_cons] at h
    obtain ⟨n, rfl⟩ : ∃ n, room = n + 1 := ⟨room - 1, by omega⟩
    have ht := TypeRef.ofJson?_toJson kept t (show t.toJson.depth ≤ n by omega)
    have hfields : (method t name).content.fields? ["declaring_type", "name"]
        = some [some t.toJson, some (.ofString name)] := rfl
    simp only [tag, kind, simpleOfJson?, hfields, ht, Json.text?_ofString]
  | unsupported t =>
    simp only [content, Json.depth_ofFields_cons] at h
    obtain ⟨n, rfl⟩ : ∃ n, room = n + 1 := ⟨room - 1, by omega⟩
    rfl

/-! ### Structs -/

theorem structOfJson?_fields (kept : Bool) {t : TypeRef} {room : Nat}
    (h : t.toJson.depth ≤ room + 1) (fields : List Json) : structOfJson? kept (room + 2)
        (.ofFields [("ty", t.toJson), ("fields", .array fields)])
      = (fields.mapM (fieldOfJson? kept room)).map (struct t) := by
  have ht := TypeRef.ofJson?_toJson kept t h
  have hfields : (Json.ofFields [("ty", t.toJson), ("fields", .array fields)]).fields?
      ["ty", "fields"] = some [some t.toJson, some (.array fields)] := rfl
  simp only [structOfJson?, hfields, ht, fieldsOfJson?, Json.items?]

theorem fieldOfJson?_field (kept : Bool) (room : Nat) (name : String) (j : Json) :
    fieldOfJson? kept (room + 1) (.ofFields [("name", .ofString name), ("value", j)])
      = (ofJson? kept room j).map (name, ·) := by
  have hfields : (Json.ofFields [("name", .ofString name), ("value", j)]).fields?
      ["name", "value"] = some [some (.ofString name), some j] := rfl
  simp only [fieldOfJson?, hfields, Json.text?_ofString]
  cases ofJson? kept room j <;> rfl

/-! ### The order of kind and content -/

end Value

/-- The same document, an object of two members having them in the other order. -/
def Json.swapped : Json → Json
  | object [m, n] => object [n, m]
  | j => j

/-- The document as it is, or with its two members swapped. -/
def Json.oriented (swap : Bool) (j : Json) : Json := if swap then j.swapped else j

namespace Value

variable (swap kept : Bool) (room : Nat)

theorem parts?_oriented (tag : String) (content : Json) :
    parts? kept room ((tagged tag content).oriented swap) = some ⟨tag, some content, swap⟩ := by
  cases swap <;> rfl

/-- A content is read by the reader of its kind; one that comes first has to be kept. -/
theorem ofJson?_oriented {tag : String} (hnull : tag ≠ "null") (hstruct : tag ≠ "struct")
    (content : Json) : ofJson? kept (room + 1) ((tagged tag content).oriented swap)
      = if swap && !content.isSound room then none
        else simpleOfJson? (kept || swap) room tag content := by
  rw [ofJson?, parts?_oriented]
  dsimp only [Option.map_some, Option.getD_some]
  generalize (swap && !content.isSound room) = refused
  -- The kinds that are not left to that reader are excluded.
  split
  · contradiction
  · contradiction
  · contradiction
  · next heq => rw [Option.some.inj heq, if_neg Bool.false_ne_true]
  · next hne _ => exact (if_pos (Bool.of_not_eq_false (hne content rfl))).symm

theorem ofJson?_struct (content : Json) :
    ofJson? kept (room + 1) ((tagged "struct" content).oriented swap)
      = if swap && !content.isSound room then none
        else structOfJson? (kept || swap) room content := by
  rw [ofJson?, parts?_oriented]
  dsimp only [Option.map_some, Option.getD_some]
  cases swap && !content.isSound room <;> rfl

end Value

end LiteralForm
