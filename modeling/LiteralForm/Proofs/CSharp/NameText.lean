/-
The characters of the names of types.

* `nameText_eq`: a chain of arrays is its core followed by one specifier for each rank;
* `closing_eq_of_append_eq`: the last character of a name tells the shape of the type;
* `specifiers_injective`: ranks are read back from the end of a text;
* `headText_injective`: a qualified name is read back, whatever keywords it is spelled like.

Design notes: a name is read from its end, because there the outermost shape of the type stands:
the question mark of a nullable type, the rank specifiers of a chain of arrays, the bracket that
closes generic arguments, or else the name of a built-in or a named type.
-/
import LiteralForm.Proofs.CSharp.Naming
import Mathlib.Data.List.Induction

namespace LiteralForm.CSharp

/-- Every part of the type can be spelled: arrays have a rank, names are identifiers, namespaces
are identifiers joined by dots. -/
inductive Spellable : TypeRef → Prop
  | primitive (p : Primitive) : Spellable (.primitive p)
  | nullable {t : TypeRef} (inner : Spellable t) : Spellable (.nullable t)
  | array {e : TypeRef} {r : UInt8} (rank : 1 ≤ r) (element : Spellable e) :
    Spellable (.array e r)
  | named {path : Option String} {name : String} {args : List TypeRef}
    (qualifier : ∀ p ∈ path, IsPath p) (identifier : IsIdentifier name)
    (arguments : ∀ t ∈ args, Spellable t) : Spellable (.named path name args)

theorem Spellable.core {t : TypeRef} (h : Spellable t) : Spellable t.core := by
  induction h with
  | primitive p => exact .primitive p
  | nullable inner => exact .nullable inner
  | array rank element ih => exact ih
  | named qualifier identifier arguments => exact .named qualifier identifier arguments

theorem Spellable.ranks {t : TypeRef} (h : Spellable t) : ∀ r ∈ t.ranks, 1 ≤ r := by
  induction h with
  | array rank element ih =>
    intro r hr
    rcases List.mem_cons.mp hr with rfl | hr
    · exact rank
    · exact ih r hr
  | _ =>
    intro r hr
    cases hr

/-! ### The characters of a name -/

variable (full : Bool)

/-- The name of a type as characters. -/
def nameText (t : TypeRef) : List Char := ((namer full).nameOf t).toList

/-- The name of a named type without its arguments. -/
def headText (path : Option String) (name : String) : List Char :=
  (qualifier full path ++ naming.safeName name).toList

/-- Rank specifiers one after another. -/
def specifiers (rs : List UInt8) : List Char := rs.flatMap fun r => (rankSpecifier r).toList

/-- Generic arguments after the first one. -/
def furtherArguments (ts : List TypeRef) : List Char :=
  ts.flatMap fun t => ',' :: ' ' :: nameText full t

@[simp] theorem furtherArguments_nil : furtherArguments full [] = [] := rfl

theorem furtherArguments_concat (ts : List TypeRef) (t : TypeRef) :
    furtherArguments full (ts ++ [t])
      = furtherArguments full ts ++ [','] ++ [' '] ++ nameText full t := by
  simp [furtherArguments]

theorem nameText_nullable (t : TypeRef) :
    nameText full (.nullable t) = nameText full t ++ ['?'] := by
  rw [nameText, Namer.nameOf_nullable]
  exact String.toList_append

theorem nameText_named_nil (path : Option String) (name : String) :
    nameText full (.named path name []) = headText full path name := by
  rw [nameText, Namer.nameOf_named]
  rfl

theorem toList_arguments (t : TypeRef) (ts : List TypeRef) :
    (String.intercalate ", " ((t :: ts).map (namer full).nameOf)).toList
      = nameText full t ++ furtherArguments full ts := by
  rw [List.map_cons, Text.toList_intercalate_cons, List.flatMap_map]
  rfl

theorem nameText_named_cons (path : Option String) (name : String) (t : TypeRef)
    (ts : List TypeRef) : nameText full (.named path name (t :: ts))
      = headText full path name ++ '<' :: (nameText full t ++ furtherArguments full ts) ++ ['>'] := by
  rw [nameText, Namer.nameOf_named]
  show (qualifier full path ++ (naming.safeName name ++ "<"
    ++ String.intercalate ", " ((t :: ts).map (namer full).nameOf) ++ ">")).toList = _
  rw [headText, ← toList_arguments]
  simp

theorem nameText_eq (t : TypeRef) :
    nameText full t = nameText full t.core ++ specifiers t.ranks := by
  cases t with
  | array e r =>
    rw [nameText, Namer.nameOf_array]
    show ((namer full).nameOf e.core
      ++ String.join ((r :: e.ranks).map rankSpecifier)).toList = _
    rw [String.toList_append, String.toList_join, List.flatMap_map]
    rfl
  | _ => exact (List.append_nil _).symm

theorem toList_rankSpecifier (r : UInt8) :
    (rankSpecifier r).toList = '[' :: (List.replicate (r.toNat - 1) ',' ++ [']']) := by
  simp [rankSpecifier]

@[simp] theorem specifiers_nil : specifiers [] = [] := rfl

theorem specifiers_concat (rs : List UInt8) (r : UInt8) :
    specifiers (rs ++ [r])
      = specifiers rs ++ ['['] ++ List.replicate (r.toNat - 1) ',' ++ [']'] := by
  simp [specifiers, toList_rankSpecifier]

theorem exists_specifiers_concat {rs : List UInt8} (h : rs ≠ []) :
    ∃ init, specifiers rs = init ++ [']'] := by
  rw [← List.dropLast_concat_getLast h, specifiers_concat]
  exact ⟨_, rfl⟩

/-! ### The end of a name -/

/-- The characters of names without arguments. -/
def isHeadChar (c : Char) : Bool := isWordChar c || c == '.' || c == '@'

theorem isHeadChar_of_isWordChar {c : Char} (h : isWordChar c = true) : isHeadChar c = true := by
  rw [isHeadChar, h]
  rfl

theorem isHeadChar_of_mem_keyword (p : Primitive) :
    ∀ c ∈ (keyword p).toList, isHeadChar c = true := fun c hc =>
  isHeadChar_of_isWordChar ((isIdentifier_keyword p).2 c hc)

theorem isHeadChar_of_mem_headText {path : Option String} {name : String}
    (hpath : ∀ p ∈ path, IsPath p) (hname : IsIdentifier name) :
    ∀ c ∈ headText full path name, isHeadChar c = true := by
  intro c hc
  rw [headText, String.toList_append, List.mem_append] at hc
  rcases hc with hc | hc
  · unfold qualifier at hc
    split at hc
    · next p =>
      rw [String.toList_append, List.mem_append] at hc
      rcases hc with hc | hc
      · rcases (hpath p rfl).mem hc with hword | rfl
        · exact isHeadChar_of_isWordChar hword
        · rfl
      · rw [List.mem_singleton.mp hc]
        rfl
    · cases hc
  · rcases mem_safeName hc with rfl | hc
    · rfl
    · exact isHeadChar_of_isWordChar (hname.2 c hc)

theorem headText_ne_nil {path : Option String} {name : String} (hname : IsIdentifier name) :
    headText full path name ≠ [] := by
  intro h
  rw [headText, String.toList_append, List.append_eq_nil_iff] at h
  by_cases hk : name ∈ keywords
  · rw [safeName_of_mem hk, String.toList_append] at h
    cases h.2
  · rw [safeName_of_notMem hk] at h
    exact hname.1 h.2

/-- The character that ends a name and shows the shape of the type, if there is one. -/
def closing : TypeRef → Option Char
  | .nullable _ => some '?'
  | .array .. => some ']'
  | .named _ _ (_ :: _) => some '>'
  | .primitive _ | .named _ _ [] => none

theorem exists_concat_of_isHeadChar {s : List Char} (hne : s ≠ [])
    (hs : ∀ c ∈ s, isHeadChar c = true) :
    ∃ init c, s = init ++ [c] ∧ none = if isHeadChar c then none else some c := by
  refine ⟨s.dropLast, s.getLast hne, (List.dropLast_concat_getLast hne).symm, ?_⟩
  rw [if_pos (hs _ (List.getLast_mem hne))]

theorem exists_nameText_concat {t : TypeRef} (h : Spellable t) : ∃ init c,
    nameText full t = init ++ [c] ∧ closing t = if isHeadChar c then none else some c := by
  cases h with
  | primitive p =>
    obtain ⟨hne, hword⟩ := isIdentifier_keyword p
    exact exists_concat_of_isHeadChar hne fun c hc => isHeadChar_of_isWordChar (hword c hc)
  | @nullable t inner => exact ⟨_, '?', nameText_nullable full t, rfl⟩
  | @array e r rank element =>
    obtain ⟨init, hinit⟩ := exists_specifiers_concat (List.cons_ne_nil r e.ranks)
    refine ⟨nameText full e.core ++ init, ']', ?_, rfl⟩
    rw [nameText_eq, List.append_assoc, ← hinit]
    rfl
  | @named path name args qualifier identifier arguments =>
    cases args with
    | nil =>
      rw [nameText_named_nil]
      exact exists_concat_of_isHeadChar (headText_ne_nil full identifier)
        (isHeadChar_of_mem_headText full qualifier identifier)
    | cons t ts => exact ⟨_, '>', nameText_named_cons full path name t ts, rfl⟩

/-- Names at the end of one text have one shape. -/
theorem closing_eq_of_append_eq {t u : TypeRef} (ht : Spellable t) (hu : Spellable u)
    {x y : List Char} (h : x ++ nameText full t = y ++ nameText full u) :
    closing t = closing u := by
  obtain ⟨i, c, hi, hc⟩ := exists_nameText_concat full ht
  obtain ⟨j, d, hj, hd⟩ := exists_nameText_concat full hu
  rw [hi, hj, ← List.append_assoc, ← List.append_assoc] at h
  obtain ⟨-, hcd⟩ := List.append_inj' h rfl
  rw [hc, hd, (List.cons.inj hcd).1]

/-! ### Chains of arrays -/

theorem bracket_mem_getLast?_specifiers (x : List Char) (rs : List UInt8) (r : UInt8) :
    ']' ∈ (x ++ specifiers (rs ++ [r])).getLast? := by
  rw [specifiers_concat, ← List.append_assoc, List.getLast?_concat]
  rfl

/-- The last specifier is read from the end of a text. -/
theorem specifiers_concat_injective {x y : List Char} {rs ss : List UInt8} {r s : UInt8}
    (hr : 1 ≤ r) (hs : 1 ≤ s) (h : x ++ specifiers (rs ++ [r]) = y ++ specifiers (ss ++ [s])) :
    x ++ specifiers rs = y ++ specifiers ss ∧ r = s := by
  have hcommas : ∀ n, ∀ c ∈ List.replicate n ',', c = ',' := fun n c hc =>
    (List.mem_replicate.mp hc).2
  have hopen : ∀ z : List Char, ∀ c ∈ (z ++ ['[']).getLast?, ¬c = ',' := by
    intro z c hc
    rw [List.getLast?_concat] at hc
    cases hc
    decide
  simp only [specifiers_concat, ← List.append_assoc, List.append_cancel_right_eq] at h
  -- The bracket that opens a specifier ends the run of its commas.
  obtain ⟨hfront, hcount⟩ := Text.append_inj_of_run_end (hcommas _) (hcommas _) (hopen _)
    (hopen _) h
  have hranks := congrArg List.length hcount
  rw [List.length_replicate, List.length_replicate] at hranks
  have hrpos := UInt8.le_iff_toNat_le.mp hr
  have hspos := UInt8.le_iff_toNat_le.mp hs
  refine ⟨List.append_cancel_right hfront, UInt8.toNat_inj.mp ?_⟩
  rw [UInt8.toNat_one] at hrpos hspos
  omega

/-- Specifiers are read from the end of a text, if none stands right before them. -/
theorem specifiers_injective {x y : List Char} {rs ss : List UInt8} (hx : ']' ∉ x.getLast?)
    (hy : ']' ∉ y.getLast?) (hr : ∀ r ∈ rs, 1 ≤ r) (hs : ∀ s ∈ ss, 1 ≤ s)
    (h : x ++ specifiers rs = y ++ specifiers ss) : x = y ∧ rs = ss := by
  induction rs using List.reverseRecOn generalizing ss with
  | nil =>
    cases ss using List.reverseRecOn with
    | nil => exact ⟨List.append_cancel_right h, rfl⟩
    | append_singleton ss s _ =>
      rw [specifiers_nil, List.append_nil] at h
      exact absurd (h ▸ bracket_mem_getLast?_specifiers y ss s) hx
  | append_singleton rs r ih =>
    cases ss using List.reverseRecOn with
    | nil =>
      rw [specifiers_nil, List.append_nil] at h
      exact absurd (h ▸ bracket_mem_getLast?_specifiers x rs r) hy
    | append_singleton ss s _ =>
      obtain ⟨hfront, rfl⟩ := specifiers_concat_injective (hr r (by simp)) (hs s (by simp)) h
      obtain ⟨rfl, rfl⟩ := ih (fun q hq => hr q (List.mem_append_left _ hq))
        (fun q hq => hs q (List.mem_append_left _ hq)) hfront
      exact ⟨rfl, rfl⟩

/-! ### The front of a name -/

/-- A text leaves off where the name of a type may begin. -/
def Opens (x : List Char) : Prop := ∀ c ∈ x.getLast?, isHeadChar c = false

theorem opens_concat {c : Char} (hc : isHeadChar c = false) (x : List Char) : Opens (x ++ [c]) := by
  intro d hd
  rw [List.getLast?_concat] at hd
  cases hd
  exact hc

theorem append_headText_injective {x y : List Char} (hx : Opens x) (hy : Opens y)
    {a b : List Char} (ha : ∀ c ∈ a, isHeadChar c = true) (hb : ∀ c ∈ b, isHeadChar c = true)
    (h : x ++ a = y ++ b) : x = y ∧ a = b :=
  Text.append_inj_of_run_end ha hb (fun c hc => by rw [hx c hc]; exact Bool.false_ne_true)
    (fun c hc => by rw [hy c hc]; exact Bool.false_ne_true) h

theorem point_notMem_safeName {name : String} (h : IsIdentifier name) :
    '.' ∉ (naming.safeName name).toList := by
  intro hp
  rcases mem_safeName hp with hat | hname
  · cases hat
  · exact absurd (h.2 '.' hname) (by decide)

/-- A qualified name is cut at its last point. -/
theorem headText_injective {p q : Option String} {m n : String} (hm : IsIdentifier m)
    (hn : IsIdentifier n) (h : headText true p m = headText true q n) : p = q ∧ m = n := by
  have hrun : ∀ {name : String}, IsIdentifier name →
      ∀ c ∈ (naming.safeName name).toList, c ≠ '.' := by
    rintro name hname c hc rfl
    exact point_notMem_safeName hname hc
  have hpoint : ∀ r : Option String, ∀ c ∈ (qualifier true r).toList.getLast?, ¬c ≠ '.' := by
    intro r c hc
    cases r with
    | none => cases hc
    | some r =>
      rw [show qualifier true (some r) = r ++ "." from rfl, String.toList_append] at hc
      rw [show (".").toList = ['.'] from rfl, List.getLast?_concat] at hc
      cases hc
      exact not_not_intro rfl
  rw [headText, headText, String.toList_append, String.toList_append] at h
  obtain ⟨hpath, hname⟩ := Text.append_inj_of_run_end (hrun hm) (hrun hn) (hpoint p) (hpoint q) h
  have hat : ∀ {name : String}, IsIdentifier name → '@' ∉ name.toList := fun hname hc =>
    absurd (hname.2 '@' hc) (by decide)
  refine ⟨?_, safeName_injective (hat hm) (hat hn) (String.toList_inj.mp hname)⟩
  -- What stands before the name ends with a point exactly if there is a namespace.
  have hqualifier := String.toList_inj.mp hpath
  cases p with
  | none =>
    cases q with
    | none => rfl
    | some q => exact absurd (congrArg String.toList hqualifier) (by simp [qualifier])
  | some p =>
    cases q with
    | none => exact absurd (congrArg String.toList hqualifier) (by simp [qualifier])
    | some q =>
      have hpq : p = q := by simpa [qualifier] using hqualifier
      rw [hpq]

/-- A built-in type is not the type of any name. -/
theorem keyword_ne_headText (p : Primitive) (path : Option String) (name : String) :
    (keyword p).toList ≠ headText true path name := by
  intro h
  cases path with
  | none =>
    refine safeName_notMem_keywords name ?_
    have hname : keyword p = naming.safeName name := by
      rw [← String.toList_inj, h, headText, String.toList_append]
      rfl
    rw [← hname]
    exact keyword_mem_keywords p
  | some path =>
    have hpoint : '.' ∈ (keyword p).toList := by
      rw [h, headText, show qualifier true (some path) = path ++ "." from rfl]
      simp
    exact absurd ((isIdentifier_keyword p).2 '.' hpoint) (by decide)

end LiteralForm.CSharp
