/-
The code of a value identifies its kind and the value.

Every kind of scalar value has literals of its own: the kind can be told from the first and the
last characters of the code (`ScalarKind.ofCode_render`), and within a kind the code is read
back to one value.  `Value.same_of_code_eq` puts both together, for renderers with different
options and values with different declared types.

* `ScalarKind.ofNumber`: numbers are told apart by their suffix, and without one by the point;
* `Value.Same`: the same value, where all patterns of one width that are no number are one.

Design notes: what begins like a number is a number.  Everything else is told by its first
characters: a quote, the parentheses of a cast, or the letters of a keyword.
-/
import LiteralForm.Proofs.Decimal.Text
import LiteralForm.Proofs.Float.Literal
import LiteralForm.Proofs.Integer.Literal
import LiteralForm.Proofs.Text.Token

namespace LiteralForm

/-! ### Scalar values -/

/-- The kinds of values that are neither made of other values nor named by a declaration. -/
inductive ScalarKind
  | null
  | string
  | char
  | decimal
  | float32
  | float64
  | integral (kind : IntKind)
  | bool
  deriving DecidableEq, Repr

namespace Value

/-- The scalar kind of a value, if it is a scalar. -/
def scalarKind? : Value → Option ScalarKind
  | null => some .null
  | string _ => some .string
  | char _ => some .char
  | decimal _ => some .decimal
  | float32 _ => some .float32
  | float64 _ => some .float64
  | integral i => some (.integral i.kind)
  | bool _ => some .bool
  | enum _ | type _ | method .. | struct .. | unsupported _ => none

/-- Two values are the same: equal, or both no number in one width. -/
inductive Same : Value → Value → Prop
  | refl (v : Value) : Same v v
  | nan32 {x y : BinaryFloat .single} (hx : x.isNaN = true) (hy : y.isNaN = true) :
    Same (float32 x) (float32 y)
  | nan64 {x y : BinaryFloat .double} (hx : x.isNaN = true) (hy : y.isNaN = true) :
    Same (float64 x) (float64 y)

theorem Same.kind_eq {v w : Value} (h : v.Same w) : v.kind = w.kind := by
  cases h <;> rfl

end Value

theorem Renderer.code_char (r : Renderer) (declared : Option TypeRef) (c : Char) :
    (r.render declared (.char c)).code = Text.charLiteral? c := by
  rw [Renderer.render]
  cases Text.charLiteral? c <;> rfl

/-! ### Telling the kind from the code -/

namespace ScalarKind

/-- The kind of a text that is a number, by its suffix. -/
def ofNumber (text : List Char) : ScalarKind :=
  match text.reverse with
  | 'm' :: _ => decimal
  | 'f' :: _ => float32
  | 'U' :: _ => integral .uint32
  | 'L' :: 'U' :: _ => integral .uint64
  | 'L' :: _ => integral .int64
  | _ => if '.' ∈ text then float64 else integral .int32

/-- The kind of scalar value that a text is the code of. -/
def ofCode (text : List Char) : ScalarKind :=
  if Numeral.startsNumber text then ofNumber text
  else
    match text with
    | '\x22' :: _ | '@' :: _ => string
    | '\x27' :: _ => char
    | '(' :: '(' :: 'b' :: _ => integral .byte
    | '(' :: '(' :: 's' :: 'b' :: _ => integral .sbyte
    | '(' :: '(' :: 's' :: _ => integral .int16
    | '(' :: '(' :: _ => integral .uint16
    -- The keyword `double` begins like `default`, and `float` like `false`.
    | 'd' :: 'o' :: _ => float64
    | 'f' :: 'l' :: _ => float32
    | 't' :: _ | 'f' :: _ => bool
    | _ => null

/-! ### Numbers -/

theorem ofCode_of_startsNumber {text : List Char} (h : Numeral.startsNumber text = true) :
    ofCode text = ofNumber text := by
  unfold ofCode
  rw [if_pos h]

/-- Without a suffix the point decides. -/
theorem ofNumber_of_lastIsDigit {text : List Char} (h : LastIsDigit text) :
    ofNumber text = if '.' ∈ text then float64 else integral .int32 := by
  obtain ⟨init, c, rfl, hc⟩ := h
  rw [ofNumber, List.reverse_append, List.reverse_singleton, List.singleton_append]
  split
  all_goals first
    | rfl
    | next h => exact absurd (List.cons.inj h).1 (ne_of_isDigit hc rfl)

/-- The suffix of a signed number is not the end of the suffix of an unsigned one. -/
theorem ofNumber_long {text : List Char} (h : LastIsDigit text) :
    ofNumber (text ++ ['L']) = integral .int64 := by
  obtain ⟨init, c, rfl, hc⟩ := h
  have hne : c ≠ 'U' := ne_of_isDigit hc rfl
  rw [ofNumber, List.reverse_append, List.reverse_append]
  simp [hne]

/-! ### The code of each kind -/

theorem ofCode_stringLiteral (threshold : Nat) (s : String) :
    ofCode (Text.stringLiteral threshold s).toList = string := by
  rw [Text.stringLiteral, String.toList_ofList]
  split <;> rfl

theorem ofCode_charLiteral {c : Char} {code : String} (h : Text.charLiteral? c = some code) :
    ofCode code.toList = char := by
  rw [Text.charLiteral?, Option.ite_none_right_eq_some, Option.some.injEq] at h
  rw [← h.2, String.toList_ofList]
  rfl

theorem ofCode_decimalLiteral (d : Decimal) : ofCode d.literal.toList = decimal := by
  rw [Decimal.literal, String.toList_append,
    ofCode_of_startsNumber (Decimal.startsNumber_text d _)]
  simp [ofNumber]

theorem ofCode_integralLiteral (full : Bool) (i : Integral) :
    ofCode (i.literal (CSharp.namer full)).toList = integral i.kind := by
  obtain ⟨k, n, hn⟩ := i
  have hstart := Integral.startsNumber_toString n
  have hlast := Integral.lastIsDigit_toString n
  cases k <;> simp only [Integral.literal, integralLiteral, CSharp.namer, CSharp.keyword,
    CSharp.intKeyword, String.toList_append]
  case int32 =>
    rw [ofCode_of_startsNumber (by simpa using hstart []), ofNumber_of_lastIsDigit hlast,
      if_neg (Integral.point_notMem_toString n)]
  case int64 => exact (ofCode_of_startsNumber (hstart _)).trans (ofNumber_long hlast)
  case uint32 =>
    rw [ofCode_of_startsNumber (hstart _)]
    simp [ofNumber]
  case uint64 =>
    rw [ofCode_of_startsNumber (hstart _)]
    simp [ofNumber]
  all_goals rfl

theorem ofCode_doubleLiteral (full : Bool) (x : BinaryFloat .double) :
    ofCode (doubleLiteral (CSharp.namer full) x).toList = float64 := by
  have hcode := FloatLiteral.toList_render_cases FloatLiteral.double.isScientific (by decide) x
    "double" ""
  rw [doubleLiteral, floatLiteral, FloatLiteral.ofDouble]
  simp only [CSharp.namer, CSharp.keyword]
  rcases hcode with ⟨n, hn, hr⟩ | ⟨rest, hr⟩
  · have hstart := hn.startsNumber_text []
    rw [List.append_nil] at hstart
    rw [hr, String.toList_empty, List.append_nil, ofCode_of_startsNumber hstart,
      ofNumber_of_lastIsDigit hn.lastIsDigit, if_pos hn.point_mem_text]
  · rw [hr]
    rfl

theorem ofCode_singleLiteral (full : Bool) (x : BinaryFloat .single) :
    ofCode (singleLiteral (CSharp.namer full) x).toList = float32 := by
  have hcode := FloatLiteral.toList_render_cases FloatLiteral.single.isScientific (by decide) x
    "float" "f"
  rw [singleLiteral, floatLiteral, FloatLiteral.ofSingle]
  simp only [CSharp.namer, CSharp.keyword]
  rcases hcode with ⟨n, hn, hr⟩ | ⟨rest, hr⟩
  · rw [hr, ofCode_of_startsNumber (hn.startsNumber_text _)]
    simp [ofNumber]
  · rw [hr]
    rfl

theorem ofCode_nullLiteral (o : Options) (declared : Option TypeRef) :
    ofCode ((Renderer.csharp o).nullLiteral declared).toList = null := by
  cases declared with
  | none =>
    rw [Renderer.nullLiteral]
    rfl
  | some t =>
    rw [Renderer.nullLiteral]
    split
    · rfl
    · rw [defaultExpression, String.toList_append, String.toList_append]
      rfl

/-- The kind of a scalar value can be told from its code alone. -/
theorem ofCode_render {o : Options} {declared : Option TypeRef} {v : Value} {k : ScalarKind}
    {code : String} (hk : v.scalarKind? = some k)
    (hcode : ((Renderer.csharp o).render declared v).code = some code) :
    ofCode code.toList = k := by
  cases v with
  | null =>
    cases hk
    cases hcode
    exact ofCode_nullLiteral o declared
  | string s =>
    cases hk
    cases hcode
    exact ofCode_stringLiteral _ s
  | char c =>
    cases hk
    rw [Renderer.code_char] at hcode
    exact ofCode_charLiteral hcode
  | decimal d =>
    cases hk
    cases hcode
    exact ofCode_decimalLiteral d
  | float32 x =>
    cases hk
    cases hcode
    exact ofCode_singleLiteral _ x
  | float64 x =>
    cases hk
    cases hcode
    exact ofCode_doubleLiteral _ x
  | integral i =>
    cases hk
    cases hcode
    exact ofCode_integralLiteral _ i
  | bool b =>
    cases hk
    cases hcode
    cases b <;> rfl
  | _ => cases hk

example : ofCode "default(int?)".toList = null ∧ ofCode "double.NaN".toList = float64 := by
  decide

end ScalarKind

/-! ### Within a kind -/

namespace Value

variable {m n : Bool} {threshold₁ threshold₂ : Nat} {code : String}

theorem same_of_stringLiteral {s t : String} (hs : Text.stringLiteral threshold₁ s = code)
    (ht : Text.stringLiteral threshold₂ t = code) : (string s).Same (string t) := by
  have hread := Text.readString_stringLiteral threshold₁ s
  rw [hs, ← ht, Text.readString_stringLiteral] at hread
  obtain rfl : t = s := String.toList_inj.mp (Prod.mk.inj (Option.some.inj hread)).1
  exact .refl _

theorem same_of_charLiteral {c d : Char} (hc : Text.charLiteral? c = some code)
    (hd : Text.charLiteral? d = some code) : (char c).Same (char d) := by
  have hread := Text.readChar_charLiteral hc
  rw [Text.readChar_charLiteral hd] at hread
  obtain rfl : d = c := (Prod.mk.inj (Option.some.inj hread)).1
  exact .refl _

theorem same_of_decimalLiteral {a b : Decimal} (ha : a.literal = code) (hb : b.literal = code) :
    (decimal a).Same (decimal b) := by
  obtain rfl := Decimal.literal_injective (ha.trans hb.symm)
  exact .refl _

theorem same_of_singleLiteral {x y : BinaryFloat .single}
    (hx : singleLiteral (CSharp.namer m) x = code)
    (hy : singleLiteral (CSharp.namer n) y = code) : (float32 x).Same (float32 y) := by
  have hname : ∀ rest, Numeral.startsNumber ("float".toList ++ rest) = false := fun _ => rfl
  rcases FloatLiteral.eq_or_isNaN_of_render_eq FloatLiteral.single.isScientific (by decide) hname
    (hx.trans hy.symm) with rfl | ⟨hx, hy⟩
  · exact .refl _
  · exact .nan32 hx hy

theorem same_of_doubleLiteral {x y : BinaryFloat .double}
    (hx : doubleLiteral (CSharp.namer m) x = code)
    (hy : doubleLiteral (CSharp.namer n) y = code) : (float64 x).Same (float64 y) := by
  have hname : ∀ rest, Numeral.startsNumber ("double".toList ++ rest) = false := fun _ => rfl
  rcases FloatLiteral.eq_or_isNaN_of_render_eq FloatLiteral.double.isScientific (by decide) hname
    (hx.trans hy.symm) with rfl | ⟨hx, hy⟩
  · exact .refl _
  · exact .nan64 hx hy

theorem same_of_integralLiteral {i j : Integral} (hk : i.kind = j.kind)
    (hi : i.literal (CSharp.namer m) = code) (hj : j.literal (CSharp.namer n) = code) :
    (integral i).Same (integral j) := by
  have hn : (CSharp.namer m).primitive = (CSharp.namer n).primitive := rfl
  obtain rfl := Integral.literal_injective hn hk (hi.trans hj.symm)
  exact .refl _

theorem same_of_boolLiteral {a b : Bool} (ha : (if a then "true" else "false") = code)
    (hb : (if b then "true" else "false") = code) : (bool a).Same (bool b) := by
  have hcode := ha.trans hb.symm
  obtain rfl : a = b := by
    revert hcode
    cases a <;> cases b <;> decide
  exact .refl _

variable {o₁ o₂ : Options} {d₁ d₂ : Option TypeRef} {v w : Value}

/-- Scalar values of one kind with the same code are the same. -/
theorem same_of_scalarKind?_eq (hv : v.scalarKind?.isSome = true)
    (hkind : v.scalarKind? = w.scalarKind?)
    (hcv : ((Renderer.csharp o₁).render d₁ v).code = some code)
    (hcw : ((Renderer.csharp o₂).render d₂ w).code = some code) : v.Same w := by
  cases v with
  | null =>
    cases w with
    | null => exact .refl _
    | _ => cases hkind
  | string s =>
    cases w with
    | string t => exact same_of_stringLiteral (Option.some.inj hcv) (Option.some.inj hcw)
    | _ => cases hkind
  | char c =>
    cases w with
    | char d =>
      rw [Renderer.code_char] at hcv hcw
      exact same_of_charLiteral hcv hcw
    | _ => cases hkind
  | decimal a =>
    cases w with
    | decimal b => exact same_of_decimalLiteral (Option.some.inj hcv) (Option.some.inj hcw)
    | _ => cases hkind
  | float32 x =>
    cases w with
    | float32 y => exact same_of_singleLiteral (Option.some.inj hcv) (Option.some.inj hcw)
    | _ => cases hkind
  | float64 x =>
    cases w with
    | float64 y => exact same_of_doubleLiteral (Option.some.inj hcv) (Option.some.inj hcw)
    | _ => cases hkind
  | integral i =>
    cases w with
    | integral j =>
      have hk : i.kind = j.kind := ScalarKind.integral.inj (Option.some.inj hkind)
      exact same_of_integralLiteral hk (Option.some.inj hcv) (Option.some.inj hcw)
    | _ => cases hkind
  | bool a =>
    cases w with
    | bool b => exact same_of_boolLiteral (Option.some.inj hcv) (Option.some.inj hcw)
    | _ => cases hkind
  | _ => cases hv

/-! ### The code identifies the value -/

/-- Scalar values with the same code have the same kind and are the same, whatever the options
of the two renderers and the declared types. -/
theorem same_of_code_eq (hv : v.scalarKind?.isSome = true) (hw : w.scalarKind?.isSome = true)
    (hcv : ((Renderer.csharp o₁).render d₁ v).code = some code)
    (hcw : ((Renderer.csharp o₂).render d₂ w).code = some code) :
    v.kind = w.kind ∧ v.Same w := by
  obtain ⟨k, hk⟩ := Option.isSome_iff_exists.mp hv
  obtain ⟨l, hl⟩ := Option.isSome_iff_exists.mp hw
  have hkl : k = l := (ScalarKind.ofCode_render hk hcv).symm.trans (ScalarKind.ofCode_render hl hcw)
  have hkind : v.scalarKind? = w.scalarKind? := by rw [hk, hl, hkl]
  have hsame := same_of_scalarKind?_eq hv hkind hcv hcw
  exact ⟨hsame.kind_eq, hsame⟩

/-- Two patterns that are no number, with different signs and payloads, under different
options. -/
theorem same_of_code_eq_nan :
    ((Renderer.csharp ⟨true, 0⟩).render none (.float32 ⟨0x7fc00000⟩)).code
      = some "float.NaN" ∧
    ((Renderer.csharp .default).render (some (.primitive .float32)) (.float32 ⟨0xff800001⟩)).code
      = some "float.NaN" ∧
    (float32 ⟨0x7fc00000⟩).kind = (float32 ⟨0xff800001⟩).kind ∧
    (float32 ⟨0x7fc00000⟩).Same (float32 ⟨0xff800001⟩) := by
  have hv : ((Renderer.csharp ⟨true, 0⟩).render none (.float32 ⟨0x7fc00000⟩)).code
      = some "float.NaN" := by decide +kernel
  have hw : ((Renderer.csharp .default).render (some (.primitive .float32))
      (.float32 ⟨0xff800001⟩)).code = some "float.NaN" := by decide +kernel
  exact ⟨hv, hw, same_of_code_eq rfl rfl hv hw⟩

end Value

end LiteralForm
