/-
What is logged about a rendering.

* `Value.LacksLiteral`: the values that have no literal;
* `Renderer.Reported`: an event of severity debug stands for code that is missing, one of severity
  trace for a verbatim string or the cast of an enum value, and nothing else is logged;
* `Renderer.reported_render`: every rendering is reported like that.

Design notes: whether a string is verbatim and whether an enum value is cast is asked of the code
that a reader sees, not of the choice that led to it.  That needs no assumption on the namer, since
the name of a type cannot make another form look like a cast (`render_eq_numericCast_iff`).
-/
import LiteralForm.Proofs.Enum.Injective
import LiteralForm.Rendering

namespace LiteralForm

/-! ### Values without a literal -/

namespace Value

/-- The second value stands in a field of the first one, at any depth. -/
inductive Contains : Value → Value → Prop
  | field {t : TypeRef} {fields : List (String × Value)} {name : String} {w : Value}
    (h : (name, w) ∈ fields) : Contains (struct t fields) w
  | nested {t : TypeRef} {fields : List (String × Value)} {name : String} {v w : Value}
    (h : (name, v) ∈ fields) (hw : Contains v w) : Contains (struct t fields) w

/-- A character outside the Basic Multilingual Plane, a struct with a field at some depth that is
not zero, or a value of no kind that has literals. -/
inductive LacksLiteral : Value → Prop
  | wideChar {c : Char} (h : 0xffff < c.toNat) : LacksLiteral (char c)
  | nonzeroField {t : TypeRef} {fields : List (String × Value)} {w : Value}
    (h : Contains (struct t fields) w) (hw : w.isZero = false) : LacksLiteral (struct t fields)
  | unsupported (typeName : String) : LacksLiteral (unsupported typeName)

theorem allZero_eq_true_iff {fields : List (String × Value)} :
    allZero fields = true ↔ ∀ f ∈ fields, f.2.isZero = true := by
  induction fields with
  | nil => simp [allZero]
  | cons f fields ih => rw [allZero, Bool.and_eq_true, ih, List.forall_mem_cons]

/-- A struct that is zero contains nothing but zeros. -/
theorem Contains.isZero_eq_true {v w : Value} (h : Contains v w) (hv : v.isZero = true) :
    w.isZero = true := by
  induction h with
  | field h => exact allZero_eq_true_iff.mp hv _ h
  | nested h _ ih => exact ih (allZero_eq_true_iff.mp hv _ h)

theorem lacksLiteral_struct_iff {t : TypeRef} {fields : List (String × Value)} :
    LacksLiteral (struct t fields) ↔ allZero fields = false := by
  constructor
  · intro h
    cases h with
    | nonzeroField hw hzero =>
      refine Bool.eq_false_iff.mpr fun hall => ?_
      rw [hw.isZero_eq_true hall] at hzero
      contradiction
  · intro h
    have hsome : ∃ f ∈ fields, f.2.isZero = false := by
      by_contra hnone
      refine Bool.eq_false_iff.mp h (allZero_eq_true_iff.mpr fun f hf => ?_)
      exact Bool.eq_true_of_not_eq_false fun hzero => hnone ⟨f, hf, hzero⟩
    obtain ⟨⟨name, w⟩, hw, hzero⟩ := hsome
    exact .nonzeroField (.field hw) hzero

end Value

/-! ### The forms of strings and of enum values -/

/-- The code begins like a verbatim string. -/
def Text.IsVerbatim (code : String) : Prop := ∃ rest, code = "@\"" ++ rest

theorem Text.isVerbatim_stringLiteral_iff {threshold : Nat} {s : String} :
    IsVerbatim (stringLiteral threshold s) ↔ prefersVerbatim threshold s.toList = true := by
  unfold stringLiteral
  constructor
  · rintro ⟨rest, hrest⟩
    by_contra hquoted
    rw [if_neg hquoted] at hrest
    have hlist := congrArg String.toList hrest
    rw [String.toList_ofList, String.toList_append] at hlist
    cases hlist
  · intro h
    rw [if_pos h]
    exact ⟨String.ofList (doubleQuotes s.toList ++ ['\x22']),
      String.toList_inj.mp (by simp [verbatim])⟩

namespace EnumValue

theorem form_ne_combination_nil (v : EnumValue) : v.form ≠ .combination [] := by
  unfold form
  dsimp only
  split
  · nofun
  · split
    · nofun
    · nofun
    · nofun
    · next names hnil _ _ =>
      rintro ⟨⟩
      exact hnil rfl

/-- Only the number of the underlying range is ever cast. -/
theorem eq_normalize_of_form_eq_cast {v : EnumValue} {k : Int} (h : v.form = .cast k) :
    k = v.type.normalize v.raw.val := by
  unfold form at h
  dsimp only at h
  split at h
  · cases h
  · split at h <;> cases h <;> rfl

theorem literal_eq_numericCast_iff {n : Namer} {v : EnumValue} {k : Int} :
    v.literal n = numericCast (n.nameOf v.type.type) k ↔ v.form = .cast k :=
  EnumForm.render_eq_numericCast_iff v.form_ne_combination_nil

end EnumValue

/-! ### Events -/

namespace Renderer

/-- The event is the trace of a verbatim string, with its length in bytes and the threshold, or of
an enum value that is cast, with the number shown. -/
def IsTrace (r : Renderer) (v : Value) (code : Option String) (e : Event) : Prop :=
  (∃ s c, v = .string s ∧ code = some c ∧ Text.IsVerbatim c ∧
    e = .verbatimString s.utf8ByteSize r.options.verbatimThreshold.toNat) ∨
  (∃ x k, v = .enum x ∧ code = some (numericCast (r.typeName x.type.type) k) ∧
    e = .unnamedEnum k)

/-- How the events of a rendering belong to the value and to its code. -/
structure Reported (r : Renderer) (v : Value) (out : Rendered) : Prop where
  atMostOne : out.events.length ≤ 1
  /-- Code is missing exactly if one event of severity debug is logged. -/
  missing_iff_debug : out.code = none ↔ ∃ e, out.events = [e] ∧ e.level = .debug
  missing_iff_lacksLiteral : out.code = none ↔ v.LacksLiteral
  debug_kind : ∀ e ∈ out.events, e.level = .debug → e.fields.lookup "kind" = some v.kind
  trace_iff : ∀ e, e ∈ out.events ∧ e.level = .trace ↔ r.IsTrace v out.code e
  /-- The number in a cast is the one of the underlying range. -/
  cast_normalized : ∀ x k, v = .enum x →
    out.code = some (numericCast (r.typeName x.type.type) k) → k = x.type.normalize x.raw.val
  /-- What is neither missing nor traced is not logged at all. -/
  silent : out.code ≠ none → (∀ e, ¬r.IsTrace v out.code e) → out.events = []

variable {r : Renderer} {v : Value}

theorem IsTrace.level_eq {code : Option String} {e : Event} (h : r.IsTrace v code e) :
    e.level = .trace := by
  rcases h with ⟨s, c, -, -, -, rfl⟩ | ⟨x, k, -, -, rfl⟩ <;> rfl

/-- Code whose events are exactly its traces. -/
theorem reported_some {code : String} {events : List Event} (hliteral : ¬v.LacksLiteral)
    (hlength : events.length ≤ 1) (htrace : ∀ e, e ∈ events ↔ r.IsTrace v (some code) e)
    (hcast : ∀ x k, v = .enum x → code = numericCast (r.typeName x.type.type) k →
      k = x.type.normalize x.raw.val) : r.Reported v ⟨some code, events⟩ where
  atMostOne := hlength
  missing_iff_debug := by
    refine ⟨nofun, ?_⟩
    rintro ⟨e, rfl, hdebug⟩
    rw [((htrace e).mp List.mem_cons_self).level_eq] at hdebug
    cases hdebug
  missing_iff_lacksLiteral := ⟨nofun, fun h => absurd h hliteral⟩
  debug_kind := by
    intro e he hdebug
    rw [((htrace e).mp he).level_eq] at hdebug
    cases hdebug
  trace_iff e := by
    rw [← htrace e]
    exact and_iff_left_of_imp fun he => ((htrace e).mp he).level_eq
  cast_normalized x k hv hcode := hcast x k hv (Option.some.inj hcode)
  silent _ hnone := List.eq_nil_iff_forall_not_mem.mpr fun e he => hnone e ((htrace e).mp he)

/-- Missing code, with an event of severity debug that names the kind. -/
theorem reported_none {e : Event} (hliteral : v.LacksLiteral) (hlevel : e.level = .debug)
    (hkind : e.fields.lookup "kind" = some v.kind) : r.Reported v ⟨none, [e]⟩ where
  atMostOne := Nat.le_refl 1
  missing_iff_debug := ⟨fun _ => ⟨e, rfl, hlevel⟩, fun _ => rfl⟩
  missing_iff_lacksLiteral := ⟨fun _ => hliteral, fun _ => rfl⟩
  debug_kind := by
    intro d hd _
    rw [List.mem_singleton.mp hd]
    exact hkind
  trace_iff d := by
    constructor
    · rintro ⟨hd, htrace⟩
      rw [List.mem_singleton.mp hd, hlevel] at htrace
      cases htrace
    · rintro (⟨_, _, _, hcode, _⟩ | ⟨_, _, _, hcode, _⟩) <;> cases hcode
  cast_normalized _ _ _ hcode := nomatch hcode
  silent hcode _ := absurd rfl hcode

/-- Values of the other kinds have code without events. -/
theorem reported_quiet (code : String) (hliteral : ¬v.LacksLiteral)
    (hstring : ∀ s, v ≠ .string s) (henum : ∀ x, v ≠ .enum x) :
    r.Reported v (.quiet code) := by
  refine reported_some hliteral (Nat.zero_le 1) (fun e => ⟨nofun, ?_⟩)
    fun x _ hv => absurd hv (henum x)
  rintro (⟨s, _, hv, -⟩ | ⟨x, _, hv, -⟩)
  · exact absurd hv (hstring s)
  · exact absurd hv (henum x)

theorem reported_string (s : String) : r.Reported (.string s) (r.renderString s) := by
  refine reported_some nofun ?_ (fun e => ?_) fun _ _ h => nomatch h
  · split <;> simp
  · constructor
    · intro he
      split at he
      · next h =>
        have hform := Text.isVerbatim_stringLiteral_iff.mpr h
        exact .inl ⟨s, _, rfl, rfl, hform, List.mem_singleton.mp he⟩
      · cases he
    · rintro (⟨_, _, ⟨⟩, ⟨⟩, hform, rfl⟩ | ⟨_, _, hv, -⟩)
      · rw [if_pos (Text.isVerbatim_stringLiteral_iff.mp hform)]
        exact List.mem_singleton_self _
      · cases hv

theorem reported_enum (x : EnumValue) :
    r.Reported (.enum x) ⟨some (x.literal r.namer), x.form.events⟩ := by
  refine reported_some nofun ?_ (fun e => ?_) ?_
  · cases x.form <;> simp [EnumForm.events]
  · constructor
    · intro he
      cases hform : x.form with
      | cast k =>
        rw [hform] at he
        have hcode := EnumValue.literal_eq_numericCast_iff (n := r.namer).mpr hform
        exact .inr ⟨x, k, rfl, congrArg some hcode, List.mem_singleton.mp he⟩
      | _ =>
        rw [hform] at he
        cases he
    · rintro (⟨_, _, hv, -⟩ | ⟨_, k, ⟨⟩, hcode, rfl⟩)
      · cases hv
      · rw [EnumValue.literal_eq_numericCast_iff.mp (Option.some.inj hcode)]
        exact List.mem_singleton_self _
  · rintro _ k ⟨⟩ hcode
    exact EnumValue.eq_normalize_of_form_eq_cast (EnumValue.literal_eq_numericCast_iff.mp hcode)

/-- Code is missing exactly for the values without a literal, which are logged with severity debug
and their kind; verbatim strings and casts of enum values are traced, and nothing else is. -/
theorem reported_render (r : Renderer) (declared : Option TypeRef) (v : Value) :
    r.Reported v (r.render declared v) := by
  cases v with
  | string s => exact reported_string s
  | enum x => exact reported_enum x
  | char c =>
    rw [render, Text.charLiteral?]
    split
    · next h =>
      split at h
      · refine reported_quiet _ ?_ (by rintro _ ⟨⟩) (by rintro _ ⟨⟩)
        rintro ⟨⟩
        omega
      · cases h
    · next h =>
      split at h
      · cases h
      · exact reported_none (.wideChar (by omega)) rfl rfl
  | struct t fields =>
    rw [render, structDefault?]
    cases hzero : Value.allZero fields with
    | true =>
      refine reported_quiet _ (fun h => ?_) (by rintro _ ⟨⟩) (by rintro _ ⟨⟩)
      rw [Value.lacksLiteral_struct_iff.mp h] at hzero
      cases hzero
    | false => exact reported_none (Value.lacksLiteral_struct_iff.mpr hzero) rfl rfl
  | unsupported t => exact reported_none (.unsupported t) rfl rfl
  | _ => exact reported_quiet _ (by rintro ⟨⟩) (by rintro _ ⟨⟩) (by rintro _ ⟨⟩)

end Renderer

end LiteralForm
