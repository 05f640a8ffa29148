/-
Identifiers of C#.

* `IsIdentifier`, `IsPath`: the names that types can have, and the dotted names of namespaces;
* `safeName_notMem_keywords`, `safeName_injective`: an escaped name is no reserved word, and
  names without an at sign stay apart;
* `keyword_injective`: built-in types have keywords of their own.
-/
import LiteralForm.CSharp.TypeName
import LiteralForm.Proofs.Text.Run

namespace LiteralForm.CSharp

/-! ### Identifiers -/

/-- A character of identifiers.  Beyond ASCII every character may stand in one. -/
def isWordChar (c : Char) : Bool := c.isAlphanum || c == '_' || 0x80 ≤ c.toNat

/-- One or more letters, digits and underscores. -/
def IsIdentifier (s : String) : Prop := s.toList ≠ [] ∧ ∀ c ∈ s.toList, isWordChar c = true

-- The characters of the name are run through, not all characters there are.
instance (s : String) : Decidable (IsIdentifier s) :=
  decidable_of_iff (s.toList ≠ [] ∧ s.toList.all isWordChar = true)
    (and_congr_right fun _ => List.all_eq_true)

/-- One or more identifiers, joined by dots. -/
def IsPath (s : String) : Prop :=
  ∃ parts : List String, parts ≠ [] ∧ (∀ p ∈ parts, IsIdentifier p) ∧
    s = String.intercalate "." parts

theorem IsPath.mem {s : String} (h : IsPath s) {c : Char} (hc : c ∈ s.toList) :
    isWordChar c = true ∨ c = '.' := by
  obtain ⟨parts, hne, hparts, rfl⟩ := h
  obtain ⟨p, ps, rfl⟩ := List.exists_cons_of_ne_nil hne
  rw [Text.toList_intercalate_cons, List.mem_append, List.mem_flatMap] at hc
  rcases hc with hc | ⟨q, hq, hc⟩
  · exact .inl ((hparts p List.mem_cons_self).2 c hc)
  · rcases List.mem_append.mp hc with hc | hc
    · exact .inr (List.mem_singleton.mp hc)
    · exact .inl ((hparts q (List.mem_cons_of_mem p hq)).2 c hc)

/-! ### Escaped names -/

theorem safeName_of_mem {s : String} (h : s ∈ keywords) : naming.safeName s = "@" ++ s :=
  if_pos (List.contains_iff_mem.mpr h)

theorem safeName_of_notMem {s : String} (h : s ∉ keywords) : naming.safeName s = s :=
  if_neg fun hc => h (List.contains_iff_mem.mp hc)

/-- Escaping adds at most an at sign to the characters of a name. -/
theorem mem_safeName {s : String} {c : Char} (h : c ∈ (naming.safeName s).toList) :
    c = '@' ∨ c ∈ s.toList := by
  by_cases hs : s ∈ keywords
  · rw [safeName_of_mem hs, String.toList_append, List.mem_append] at h
    rcases h with h | h
    · exact .inl (List.mem_singleton.mp h)
    · exact .inr h
  · rw [safeName_of_notMem hs] at h
    exact .inr h

theorem safeName_notMem_keywords (s : String) : naming.safeName s ∉ keywords := by
  by_cases hs : s ∈ keywords
  · have hplain : ∀ k ∈ keywords, k.toList.head? ≠ some '@' := by decide +kernel
    rw [safeName_of_mem hs]
    intro h
    exact hplain _ h (by rw [String.toList_append]; rfl)
  · rwa [safeName_of_notMem hs]

theorem safeName_injective {s t : String} (hs : '@' ∉ s.toList) (ht : '@' ∉ t.toList)
    (h : naming.safeName s = naming.safeName t) : s = t := by
  have hat : ∀ r : String, '@' ∈ ("@" ++ r).toList := by
    intro r
    rw [String.toList_append]
    exact List.mem_cons_self
  by_cases hks : s ∈ keywords <;> by_cases hkt : t ∈ keywords
  · rw [safeName_of_mem hks, safeName_of_mem hkt] at h
    simpa using h
  · rw [safeName_of_mem hks, safeName_of_notMem hkt] at h
    exact absurd (h ▸ hat s) ht
  · rw [safeName_of_notMem hks, safeName_of_mem hkt] at h
    exact absurd (h ▸ hat t) hs
  · rwa [safeName_of_notMem hks, safeName_of_notMem hkt] at h

/-! ### Keywords of built-in types -/

theorem keyword_mem_keywords (p : Primitive) : keyword p ∈ keywords := by
  cases p with
  | integral k => cases k <;> decide +kernel
  | _ => decide +kernel

theorem isIdentifier_keyword (p : Primitive) : IsIdentifier (keyword p) := by
  cases p with
  | integral k => cases k <;> decide +kernel
  | _ => decide +kernel

theorem keyword_injective {p q : Primitive} (h : keyword p = keyword q) : p = q := by
  have hall : ∀ p ∈ Primitive.all, ∀ q ∈ Primitive.all, keyword p = keyword q → p = q := by
    decide +kernel
  have hmem : ∀ p : Primitive, p ∈ Primitive.all := by
    intro p
    cases p with
    | integral k => cases k <;> decide
    | _ => decide
  exact hall p (hmem p) q (hmem q) h

end LiteralForm.CSharp
