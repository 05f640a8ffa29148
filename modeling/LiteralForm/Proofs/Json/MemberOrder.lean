/-
Values are read back whichever of their two members comes first.

* `Value.toJsonIn first`: the document of a value in which the content comes before the kind at
  the nodes that `first` selects;
* `Value.ofJson?_toJsonIn`: such a document is read back, unless it holds an enum value in a part
  that is kept; then nothing is read;
* `Value.parseJson?_text_toJsonIn`: the same for texts, a node being given by the indices of the
  fields that lead to it.

Design notes: `keepsEnum` walks down the value together with the reader, so both are unfolded in
one induction; `KeepsEnum` says the same of the nodes of a value.
-/
import LiteralForm.Proofs.Json.Kept

namespace LiteralForm

open Json (WellFormed)

/-! ### Swapped members -/

namespace Json

theorem depth_swapped (j : Json) : j.swapped.depth = j.depth := by
  unfold swapped
  split
  · simp only [depth, membersDepth]
    omega
  · rfl

theorem wellFormed_swapped {j : Json} (h : WellFormed j) : WellFormed j.swapped := by
  unfold swapped
  split
  · next m n =>
    cases h with
    | object hkeys hcontents =>
      refine .object (fun k hk => hkeys k ?_) (fun k hk => hcontents k ?_) <;> grind
  · exact h

theorem isSound_swapped (room : Nat) (j : Json) : j.swapped.isSound room = j.isSound room := by
  unfold swapped
  split
  · simp only [isSound, areMembersSound]
    grind
  · rfl

variable (swap : Bool)

theorem depth_oriented (j : Json) : (j.oriented swap).depth = j.depth := by
  cases swap
  · rfl
  · exact depth_swapped j

theorem wellFormed_oriented {j : Json} (h : WellFormed j) : WellFormed (j.oriented swap) := by
  cases swap
  · exact h
  · exact wellFormed_swapped h

theorem isSound_oriented (room : Nat) (j : Json) :
    (j.oriented swap).isSound room = j.isSound room := by
  cases swap
  · rfl
  · exact isSound_swapped room j

end Json

namespace Value

/-! ### Documents with chosen orders -/

mutual

/-- A value as a document that has the content before the kind where `first` holds.  A node is
given by the indices of the fields on the way to it, from the outermost one on. -/
def toJsonIn (first : List Nat → Bool) : Value → Json
  | struct t fields =>
    (tagged "struct" (.ofFields
      [("ty", t.toJson), ("fields", .array (fieldsToJsonIn first 0 fields))])).oriented (first [])
  | v => v.toJson.oriented (first [])

/-- The documents of the fields from the index `i` on. -/
def fieldsToJsonIn (first : List Nat → Bool) (i : Nat) : List (String × Value) → List Json
  | [] => []
  | (name, v) :: fs =>
    .ofFields [("name", .ofString name), ("value", v.toJsonIn fun path => first (i :: path))]
      :: fieldsToJsonIn first (i + 1) fs

end

mutual

/-- Whether an enum value is read from a kept part, the whole being kept if `kept`. -/
def keepsEnum (kept : Bool) (first : List Nat → Bool) : Value → Bool
  | enum _ => kept || first []
  | struct _ fields => fieldsKeepEnum (kept || first []) first 0 fields
  | _ => false

/-- Whether one of the fields from the index `i` on holds an enum value in a kept part. -/
def fieldsKeepEnum (kept : Bool) (first : List Nat → Bool) (i : Nat) : List (String × Value) → Bool
  | [] => false
  | (_, v) :: fs =>
    v.keepsEnum kept (fun path => first (i :: path)) || fieldsKeepEnum kept first (i + 1) fs

end

mutual

theorem toJsonIn_never (v : Value) : v.toJsonIn (fun _ => false) = v.toJson := by
  match v with
  | struct t fields =>
    rw [toJsonIn, fieldsToJsonIn_never fields 0]
    rfl
  | null | string _ | char _ | decimal _ | float32 _ | float64 _ | integral _ | bool _ | enum _
  | type _ | method _ _ | unsupported _ => rfl

theorem fieldsToJsonIn_never (fields : List (String × Value)) (i : Nat) :
    fieldsToJsonIn (fun _ => false) i fields = fieldsToJson fields := by
  match fields with
  | [] => rfl
  | (name, v) :: fields =>
    rw [fieldsToJsonIn, toJsonIn_never v, fieldsToJsonIn_never fields (i + 1)]
    rfl

end

mutual

/-- A document nests as deep in whichever order it is written. -/
theorem depth_toJsonIn (v : Value) (first : List Nat → Bool) :
    (v.toJsonIn first).depth = v.toJson.depth := by
  match v with
  | struct t fields =>
    simp only [toJsonIn, toJson, Json.depth_oriented, depth_tagged, Json.depth_ofFields_cons,
      Json.depth_array, itemsDepth_fieldsToJsonIn fields first 0]
  | null | string _ | char _ | decimal _ | float32 _ | float64 _ | integral _ | bool _ | enum _
  | type _ | method _ _ | unsupported _ => exact Json.depth_oriented _ _

theorem itemsDepth_fieldsToJsonIn (fields : List (String × Value)) (first : List Nat → Bool)
    (i : Nat) :
    Json.itemsDepth (fieldsToJsonIn first i fields) = Json.itemsDepth (fieldsToJson fields) := by
  match fields with
  | [] => rfl
  | (name, v) :: fields =>
    simp only [fieldsToJsonIn, fieldsToJson, Json.itemsDepth, Json.depth_ofFields_cons,
      depth_toJsonIn v, itemsDepth_fieldsToJsonIn fields first (i + 1)]

end

mutual

theorem wellFormed_toJsonIn (v : Value) (first : List Nat → Bool) (h : v.isFloatFree = true) :
    WellFormed (v.toJsonIn first) := by
  match v with
  | struct t fields =>
    have hfields := WellFormed.array (wellFormed_fieldsToJsonIn fields first 0 h)
    rw [toJsonIn]
    refine Json.wellFormed_oriented _ ?_
    simp [tagged, t.wellFormed_toJson, hfields]
  | float32 x => cases h
  | float64 x => cases h
  | null | string _ | char _ | decimal _ | integral _ | bool _ | enum _ | type _ | method _ _
  | unsupported _ =>
    refine Json.wellFormed_oriented _ ?_
    simp [toJson, tagged, TypeRef.wellFormed_toJson, EnumType.wellFormed_toJson, WellFormed.bool]

theorem wellFormed_fieldsToJsonIn (fields : List (String × Value)) (first : List Nat → Bool)
    (i : Nat) (h : areFloatFree fields = true) :
    ∀ j ∈ fieldsToJsonIn first i fields, WellFormed j := by
  match fields with
  | [] => exact nofun
  | (name, v) :: fields =>
    rw [areFloatFree, Bool.and_eq_true] at h
    rw [fieldsToJsonIn, List.forall_mem_cons]
    refine ⟨?_, wellFormed_fieldsToJsonIn fields first (i + 1) h.2⟩
    simp [wellFormed_toJsonIn v _ h.1]

end

/-! ### Reading -/

/-- Null has no content that could come first. -/
theorem toJsonIn_null (first : List Nat → Bool) : null.toJsonIn first = null.toJson := by
  show null.toJson.oriented (first []) = _
  cases first [] <;> rfl

theorem isSound_tagged (tag : String) (content : Json) (room : Nat) :
    (tagged tag content).isSound (room + 1) = content.isSound room := by
  simp [tagged]

section Plain

variable {v : Value} (hv : v.isPlain = true) (first : List Nat → Bool) {room : Nat}
include hv

theorem toJsonIn_eq_oriented : v.toJsonIn first = (tagged v.tag v.content).oriented (first []) := by
  cases v with
  | null | float32 _ | float64 _ | enum _ | struct _ _ => cases hv
  | _ => rfl

theorem depth_content_lt (h : v.toJson.depth ≤ room) : v.content.depth < room := by
  have hnull : v ≠ null := by
    rintro rfl
    cases hv
  rw [toJson_eq_tagged hnull, depth_tagged] at h
  exact h

theorem isSound_toJsonIn_of_isPlain (h : v.toJson.depth ≤ room) :
    (v.toJsonIn first).isSound room = true := by
  have hlt := depth_content_lt hv h
  obtain ⟨n, rfl⟩ : ∃ n, room = n + 1 := ⟨room - 1, by omega⟩
  rw [toJsonIn_eq_oriented hv, Json.isSound_oriented, isSound_tagged,
    isSound_content hv (Nat.le_of_lt_succ hlt)]

/-- A value of a plain kind is read back in both orders. -/
theorem ofJson?_toJsonIn_of_isPlain (kept : Bool) (h : v.toJson.depth ≤ room) :
    ofJson? kept room (v.toJsonIn first) = some v := by
  have hlt := depth_content_lt hv h
  obtain ⟨n, rfl⟩ : ∃ n, room = n + 1 := ⟨room - 1, by omega⟩
  have hdepth := Nat.le_of_lt_succ hlt
  obtain ⟨hnull, hstruct⟩ := tag_ne_of_isPlain hv
  rw [toJsonIn_eq_oriented hv, ofJson?_oriented _ _ _ hnull hstruct, isSound_content hv hdepth,
    Bool.not_true, Bool.and_false, if_neg Bool.false_ne_true, simpleOfJson?_content hv _ hdepth]

end Plain

/-- An enum value is read back unless it is kept. -/
theorem ofJson?_toJsonIn_enum (e : EnumValue) (kept : Bool) (first : List Nat → Bool) {room : Nat}
    (h : (enum e).toJson.depth ≤ room) :
    ofJson? kept room ((enum e).toJsonIn first)
      = if kept || first [] then none else some (enum e) := by
  rw [toJson, depth_tagged] at h
  simp only [Json.depth_ofFields_cons] at h
  obtain ⟨n, rfl⟩ : ∃ n, room = n + 1 := ⟨room - 1, by omega⟩
  rw [toJsonIn, toJson, ofJson?_oriented _ _ _ (by decide) (by decide)]
  · show (if _ then none else (EnumValue.ofJson? (kept || first []) n _).map enum) = _
    cases hfirst : first [] with
    | true =>
      rw [Bool.or_true, EnumValue.ofJson?_kept, Option.map_none, ite_self, if_pos rfl]
    | false =>
      rw [Bool.false_and, if_neg Bool.false_ne_true, Bool.or_false]
      cases kept with
      | true => rw [EnumValue.ofJson?_kept, Option.map_none, if_pos rfl]
      | false =>
        rw [EnumValue.ofJson?_toJson e (by omega), Option.map_some, if_neg Bool.false_ne_true]
  · exact nofun

mutual

/-- A value without enum values can be kept, in whichever order it is written. -/
theorem isSound_toJsonIn (v : Value) (first : List Nat → Bool) (hfloat : v.isFloatFree = true)
    (henum : v.keepsEnum true first = false) {room : Nat} (h : v.toJson.depth ≤ room) :
    (v.toJsonIn first).isSound room = true := by
  match v with
  | struct t fields =>
    simp only [toJson, depth_tagged, Json.depth_ofFields_cons, Json.depth_array] at h
    obtain ⟨n, rfl⟩ : ∃ n, room = n + 3 := ⟨room - 3, by omega⟩
    have ht := t.isSound_toJson (show t.toJson.depth ≤ n + 1 by omega)
    have hfields := areSound_fieldsToJsonIn fields first 0 hfloat henum
      (show Json.itemsDepth (fieldsToJson fields) ≤ n by omega)
    rw [toJsonIn, Json.isSound_oriented, isSound_tagged]
    simp [ht, hfields]
  | null =>
    simp only [toJson, Json.depth_ofFields_cons] at h
    obtain ⟨n, rfl⟩ : ∃ n, room = n + 1 := ⟨room - 1, by omega⟩
    rw [toJsonIn_null]
    rfl
  | float32 x => cases hfloat
  | float64 x => cases hfloat
  | enum e => cases henum
  | string _ | char _ | decimal _ | integral _ | bool _ | type _ | method _ _ | unsupported _ =>
    exact isSound_toJsonIn_of_isPlain rfl first h

theorem areSound_fieldsToJsonIn (fields : List (String × Value)) (first : List Nat → Bool)
    (i : Nat) (hfloat : areFloatFree fields = true)
    (henum : fieldsKeepEnum true first i fields = false) {room : Nat}
    (h : Json.itemsDepth (fieldsToJson fields) ≤ room) :
    Json.areSound room (fieldsToJsonIn first i fields) = true := by
  match fields with
  | [] => rfl
  | (name, v) :: fields =>
    rw [areFloatFree, Bool.and_eq_true] at hfloat
    rw [fieldsKeepEnum, Bool.or_eq_false_iff] at henum
    rw [fieldsToJson, Json.itemsDepth] at h
    have hrest := areSound_fieldsToJsonIn fields first (i + 1) hfloat.2 henum.2
      (Nat.le_trans (Nat.le_max_right _ _) h)
    simp only [Json.depth_ofFields_cons] at h
    obtain ⟨n, rfl⟩ : ∃ n, room = n + 1 := ⟨room - 1, by omega⟩
    have hv := isSound_toJsonIn v _ hfloat.1 henum.1 (show v.toJson.depth ≤ n by omega)
    rw [fieldsToJsonIn, Json.areSound, hrest]
    simp [hv]

end

mutual

/-- A value is read back from its document in whichever order it is written, unless an enum value
would have to be kept. -/
theorem ofJson?_toJsonIn (v : Value) (kept : Bool) (first : List Nat → Bool)
    (hfloat : v.isFloatFree = true) {room : Nat} (h : v.toJson.depth ≤ room) :
    ofJson? kept room (v.toJsonIn first)
      = if v.keepsEnum kept first then none else some v := by
  match v with
  | null =>
    simp only [toJson, Json.depth_ofFields_cons] at h
    obtain ⟨n, rfl⟩ : ∃ n, room = n + 1 := ⟨room - 1, by omega⟩
    rw [toJsonIn_null]
    rfl
  | float32 x => cases hfloat
  | float64 x => cases hfloat
  | enum e => exact ofJson?_toJsonIn_enum e kept first h
  | string _ | char _ | decimal _ | integral _ | bool _ | type _ | method _ _ | unsupported _ =>
    exact ofJson?_toJsonIn_of_isPlain rfl first kept h
  | struct t fields =>
    have hsound (henum : (struct t fields).keepsEnum true first = false) :=
      isSound_toJsonIn (struct t fields) first hfloat henum h
    simp only [toJson, depth_tagged, Json.depth_ofFields_cons, Json.depth_array] at h
    obtain ⟨n, rfl⟩ : ∃ n, room = n + 3 := ⟨room - 3, by omega⟩
    have hfields := mapM_fieldsToJsonIn fields (kept || first []) first 0 hfloat
      (show Json.itemsDepth (fieldsToJson fields) ≤ n by omega)
    rw [toJsonIn, ofJson?_struct, structOfJson?_fields _ (by omega), hfields, keepsEnum]
    cases hkeep : fieldsKeepEnum (kept || first []) first 0 fields with
    | true => rw [if_pos rfl, if_pos rfl, Option.map_none, ite_self]
    | false =>
      rw [if_neg Bool.false_ne_true, if_neg Bool.false_ne_true, Option.map_some]
      -- A content that comes first holds no enum value, so it can be kept.
      refine if_neg fun hrefused => ?_
      rw [Bool.and_eq_true, Bool.not_eq_true'] at hrefused
      rw [hrefused.1, Bool.or_true] at hkeep
      have hcontent := hsound hkeep
      rw [toJsonIn, Json.isSound_oriented, isSound_tagged, hrefused.2] at hcontent
      cases hcontent

theorem mapM_fieldsToJsonIn (fields : List (String × Value)) (kept : Bool)
    (first : List Nat → Bool) (i : Nat) (hfloat : areFloatFree fields = true) {room : Nat}
    (h : Json.itemsDepth (fieldsToJson fields) ≤ room) :
    (fieldsToJsonIn first i fields).mapM (fieldOfJson? kept room)
      = if fieldsKeepEnum kept first i fields then none else some fields := by
  match fields with
  | [] => rfl
  | (name, v) :: fields =>
    rw [areFloatFree, Bool.and_eq_true] at hfloat
    rw [fieldsToJson, Json.itemsDepth] at h
    have hrest := mapM_fieldsToJsonIn fields kept first (i + 1) hfloat.2
      (Nat.le_trans (Nat.le_max_right _ _) h)
    simp only [Json.depth_ofFields_cons] at h
    obtain ⟨n, rfl⟩ : ∃ n, room = n + 1 := ⟨room - 1, by omega⟩
    have hv := ofJson?_toJsonIn v kept (fun path => first (i :: path)) hfloat.1
      (show v.toJson.depth ≤ n by omega)
    rw [fieldsToJsonIn, List.mapM_cons, fieldOfJson?_field, hv, hrest, fieldsKeepEnum]
    cases v.keepsEnum kept fun path => first (i :: path) <;>
      cases fieldsKeepEnum kept first (i + 1) fields <;> rfl

end

/-! ### Nodes -/

/-- The value at a node: the field of a field, and so on, that the indices lead to. -/
def node? : Value → List Nat → Option Value
  | v, [] => some v
  | struct _ fields, i :: path => fields[i]?.bind fun f => f.2.node? path
  | _, _ :: _ => none

/-- An enum value lies in a kept part: at a node, or below one, at which the content comes
first. -/
def KeepsEnum (v : Value) (first : List Nat → Bool) : Prop :=
  ∃ path e, v.node? path = some (enum e) ∧ ∃ above, above <+: path ∧ first above = true

theorem exists_prefix_cons {first : List Nat → Bool} {i : Nat} {path : List Nat} :
    (∃ above, above <+: i :: path ∧ first above = true) ↔
      first [] = true ∨ ∃ above, above <+: path ∧ first (i :: above) = true := by
  constructor
  · rintro ⟨above, habove, hfirst⟩
    obtain rfl | ⟨rest, rfl, hrest⟩ := List.prefix_cons_iff.mp habove
    · exact .inl hfirst
    · exact .inr ⟨rest, hrest, hfirst⟩
  · rintro (hfirst | ⟨rest, hrest, hfirst⟩)
    · exact ⟨[], List.nil_prefix, hfirst⟩
    · exact ⟨i :: rest, List.prefix_cons_iff.mpr (.inr ⟨rest, rfl, hrest⟩), hfirst⟩

mutual

theorem keepsEnum_iff (v : Value) (kept : Bool) (first : List Nat → Bool) :
    v.keepsEnum kept first = true ↔ ∃ path e, v.node? path = some (enum e) ∧
      (kept = true ∨ ∃ above, above <+: path ∧ first above = true) := by
  match v with
  | enum e =>
    rw [keepsEnum, Bool.or_eq_true]
    constructor
    · rintro (hkept | hfirst)
      · exact ⟨[], e, rfl, .inl hkept⟩
      · exact ⟨[], e, rfl, .inr ⟨[], List.nil_prefix, hfirst⟩⟩
    · rintro ⟨path | ⟨i, path⟩, e', hnode, hkept | ⟨above, habove, hfirst⟩⟩
      · exact .inl hkept
      · rw [List.prefix_nil.mp habove] at hfirst
        exact .inr hfirst
      · cases hnode
      · cases hnode
  | struct t fields =>
    rw [keepsEnum, fieldsKeepEnum_iff]
    constructor
    · rintro ⟨k, f, path, e, hf, hnode, hkept⟩
      refine ⟨k :: path, e, ?_, ?_⟩
      · rw [node?, hf, Option.bind_some, hnode]
      · rw [exists_prefix_cons, ← or_assoc, ← Bool.or_eq_true]
        simpa using hkept
    · rintro ⟨path | ⟨k, path⟩, e, hnode, hkept⟩
      · cases hnode
      · rw [node?, Option.bind_eq_some_iff] at hnode
        obtain ⟨f, hf, hnode⟩ := hnode
        rw [exists_prefix_cons, ← or_assoc, ← Bool.or_eq_true] at hkept
        exact ⟨k, f, path, e, hf, hnode, by simpa using hkept⟩
  | null | string _ | char _ | decimal _ | float32 _ | float64 _ | integral _ | bool _ | type _
  | method _ _ | unsupported _ =>
    refine iff_of_false Bool.false_ne_true ?_
    rintro ⟨path | ⟨k, path⟩, e, hnode, -⟩ <;> cases hnode

theorem fieldsKeepEnum_iff (fields : List (String × Value)) (kept : Bool)
    (first : List Nat → Bool) (i : Nat) :
    fieldsKeepEnum kept first i fields = true ↔ ∃ k f path e, fields[k]? = some f ∧
      f.2.node? path = some (enum e) ∧
        (kept = true ∨ ∃ above, above <+: path ∧ first ((i + k) :: above) = true) := by
  match fields with
  | [] => simp [fieldsKeepEnum]
  | (name, v) :: fields =>
    rw [fieldsKeepEnum, Bool.or_eq_true, keepsEnum_iff, fieldsKeepEnum_iff]
    constructor
    · rintro (⟨path, e, hnode, hkept⟩ | ⟨k, f, path, e, hf, hnode, hkept⟩)
      · exact ⟨0, (name, v), path, e, rfl, hnode, hkept⟩
      · refine ⟨k + 1, f, path, e, hf, hnode, ?_⟩
        rwa [← Nat.add_assoc, Nat.add_right_comm]
    · rintro ⟨k, f, path, e, hf, hnode, hkept⟩
      cases k with
      | zero =>
        cases hf
        exact .inl ⟨path, e, hnode, hkept⟩
      | succ k =>
        refine .inr ⟨k, f, path, e, hf, hnode, ?_⟩
        rwa [Nat.add_right_comm, Nat.add_assoc]

end

theorem keepsEnum_false_iff (v : Value) (first : List Nat → Bool) :
    v.keepsEnum false first = true ↔ v.KeepsEnum first := by
  simp [keepsEnum_iff, KeepsEnum]

theorem not_keepsEnum_never (v : Value) : ¬ v.KeepsEnum fun _ => false := by
  rintro ⟨_, _, _, _, _, hfirst⟩
  cases hfirst

instance (v : Value) (first : List Nat → Bool) : Decidable (v.KeepsEnum first) :=
  decidable_of_iff _ (v.keepsEnum_false_iff first)

/-! ### Texts -/

theorem parseJson?_text_eq (v : Value) (first : List Nat → Bool) (hfloat : v.isFloatFree = true)
    (hdepth : v.toJson.depth ≤ Json.maxDepth) :
    parseJson? (v.toJsonIn first).text = if v.KeepsEnum first then none else some v := by
  rw [parseJson?, Json.parse_text (v.wellFormed_toJsonIn first hfloat), Option.bind_some,
    v.ofJson?_toJsonIn false first hfloat hdepth]
  simp only [keepsEnum_false_iff]

/-- Swapping kind and content at any nodes of a text leaves the value that is read from it, if no
enum value is kept; one that is makes the text unreadable. -/
theorem parseJson?_text_toJsonIn (v : Value) (first : List Nat → Bool)
    (hfloat : v.isFloatFree = true) (hdepth : v.toJson.depth ≤ Json.maxDepth) :
    parseJson? v.toJson.text = some v ∧
      (¬ v.KeepsEnum first → parseJson? (v.toJsonIn first).text = some v) ∧
        (v.KeepsEnum first → parseJson? (v.toJsonIn first).text = none) := by
  refine ⟨?_, fun hkept => ?_, fun hkept => ?_⟩
  · rw [← toJsonIn_never v, parseJson?_text_eq v _ hfloat hdepth, if_neg v.not_keepsEnum_never]
  · rw [parseJson?_text_eq v first hfloat hdepth, if_neg hkept]
  · rw [parseJson?_text_eq v first hfloat hdepth, if_pos hkept]

/-- An enum value whose type declares no constants. -/
def tint : EnumValue :=
  ⟨⟨.ofName "Color", .integral .int32, false, .empty⟩, ⟨3, by decide, by decide⟩⟩

/-- A struct with an enum value beside another struct. -/
def tintedMark : Value :=
  .struct (.ofName "Pixel")
    [("Tint", .enum tint), ("Mark", .struct (.ofName "Mark") [("Text", .char 'x')])]

/-- The inner struct and its field have their content first, while the enum value does not. -/
theorem parseJson?_text_tintedMark :
    tintedMark.isFloatFree = true ∧ tintedMark.toJson.depth ≤ Json.maxDepth ∧
      ¬ tintedMark.KeepsEnum (fun path => path.head? == some 1) ∧
        parseJson? (tintedMark.toJsonIn fun path => path.head? == some 1).text
          = some tintedMark := by
  have hfloat : tintedMark.isFloatFree = true := by decide
  have hdepth : tintedMark.toJson.depth ≤ Json.maxDepth := by decide
  have hkept : ¬ tintedMark.KeepsEnum (fun path => path.head? == some 1) := by decide
  exact ⟨hfloat, hdepth, hkept, (parseJson?_text_toJsonIn tintedMark _ hfloat hdepth).2.1 hkept⟩

/-- An enum value with its content first is not the value that is read from its ordinary text. -/
theorem not_parseJson?_text_swapped :
    ¬ ∀ (v : Value) (first : List Nat → Bool), v.isFloatFree = true →
      v.toJson.depth ≤ Json.maxDepth →
        parseJson? (v.toJsonIn first).text = parseJson? v.toJson.text := by
  intro h
  have hdepth : (enum tint).toJson.depth ≤ Json.maxDepth := by decide
  have hread := h (enum tint) (fun _ => true) rfl hdepth
  rw [← toJsonIn_never (enum tint), parseJson?_text_eq _ _ rfl hdepth,
    parseJson?_text_eq _ _ rfl hdepth, if_pos (by decide), if_neg (by decide)] at hread
  cases hread

end Value

end LiteralForm
