/-
Reserved words in the names of types.

* `TypeRef.nodes`: the types that a type is made of, itself included;
* `IsWordAt`: a word of a text that goes on neither in front nor behind;
* `Guarded`: every reserved word of a text is allowed there or stands behind an at sign; texts
  joined by a character of no word stay guarded (`Guarded.append_cons`);
* `reservedWord_cases`: the reserved words in the name of a type are the keywords of built-in
  types, escaped names and, in a full name, parts of namespaces;
* `reservedWord_in_namespace`: parts of namespaces do turn up as reserved words.

Design notes: a namespace is written as it is, whereas every other name is escaped.  A word is
followed to the part of the name that it stands in, so the induction is on the core of a type like
that of `nameOf_injective`; here a rank may also be zero.
-/
import LiteralForm.Proofs.CSharp.NameText

namespace LiteralForm

namespace TypeRef

mutual

/-- The types that a type is made of. -/
def nodes : TypeRef → List TypeRef
  | .primitive p => [.primitive p]
  | .nullable t => .nullable t :: t.nodes
  | .array e r => .array e r :: e.nodes
  | .named path name args => .named path name args :: nodesOf args

/-- The types that the types of a list are made of. -/
def nodesOf : List TypeRef → List TypeRef
  | [] => []
  | t :: ts => t.nodes ++ nodesOf ts

end

end TypeRef

namespace CSharp

/-! ### Words of a text -/

/-- A word between two texts, neither of which continues it. -/
structure IsWordAt (before word after : List Char) : Prop where
  ne_nil : word ≠ []
  word : ∀ c ∈ word, isWordChar c = true
  before : ∀ c ∈ before.getLast?, isWordChar c = false
  after : ∀ c ∈ after.head?, isWordChar c = false

variable {before word after a b : List Char} {c : Char}

theorem getLast?_append_cons (a x : List Char) (c : Char) :
    (a ++ c :: x).getLast? = some (x.getLast?.getD c) := by
  rw [List.getLast?_append, List.getLast?_cons, Option.some_or]

/-- A character of no word parts a text: its words are those of the two sides. -/
theorem IsWordAt.split (hc : isWordChar c = false) (h : IsWordAt before word after)
    (heq : a ++ c :: b = before ++ word ++ after) :
    (∃ x, a = before ++ word ++ x ∧ IsWordAt before word x) ∨
      ∃ x, before = a ++ c :: x ∧ b = x ++ word ++ after ∧ IsWordAt x word after := by
  have hnot : c ∉ word := by
    intro hmem
    rw [h.word c hmem] at hc
    contradiction
  rcases List.append_eq_append_iff.mp heq with ⟨x, hx, hrest⟩ | ⟨x, ha, hx⟩
  · -- The parting character stands in front of the end of the word.
    cases x with
    | nil =>
      rw [List.append_nil] at hx
      exact .inl ⟨[], by rw [List.append_nil, hx], h.ne_nil, h.word, h.before, nofun⟩
    | cons d x =>
      obtain ⟨rfl, hb⟩ := List.cons.inj hrest
      rcases List.append_eq_append_iff.mp hx with ⟨y, -, hy⟩ | ⟨y, hbefore, hy⟩
      · exact absurd (hy ▸ List.mem_append_right y List.mem_cons_self) hnot
      · cases y with
        | nil =>
          rw [List.nil_append] at hy
          exact absurd (hy ▸ List.mem_cons_self) hnot
        | cons e y =>
          obtain ⟨rfl, rfl⟩ := List.cons.inj hy
          refine .inr ⟨y, hbefore, hb, h.ne_nil, h.word, fun d hd => h.before d ?_, h.after⟩
          rw [hbefore, getLast?_append_cons, Option.mem_def.mp hd]
          rfl
  · refine .inl ⟨x, ha, h.ne_nil, h.word, h.before, fun d hd => h.after d ?_⟩
    cases x with
    | nil => cases hd
    | cons e x =>
      rw [hx]
      exact hd

/-- A word inside a text of word characters is all of it. -/
theorem IsWordAt.eq_of_forall {text : List Char} (h : IsWordAt before word after)
    (htext : ∀ c ∈ text, isWordChar c = true) (heq : text = before ++ word ++ after) :
    before = [] ∧ word = text := by
  have hbefore : before = [] := by
    by_contra hne
    have hlast := h.before _ (List.getLast?_eq_some_getLast hne)
    rw [htext _ (by simp [heq])] at hlast
    contradiction
  have hafter : after = [] := by
    by_contra hne
    obtain ⟨d, rest, rfl⟩ := List.exists_cons_of_ne_nil hne
    have hfirst := h.after d rfl
    rw [htext d (by simp [heq])] at hfirst
    contradiction
  refine ⟨hbefore, ?_⟩
  rw [heq, hbefore, hafter, List.nil_append, List.append_nil]

/-! ### Guarded texts -/

/-- Every reserved word of the text is allowed or stands directly behind an at sign. -/
def Guarded (allowed : String → Prop) (text : List Char) : Prop :=
  ∀ ⦃before word after : List Char⦄, text = before ++ word ++ after →
    IsWordAt before word after → String.ofList word ∈ keywords →
    allowed (String.ofList word) ∨ before.getLast? = some '@'

variable {allowed : String → Prop}

theorem Guarded.append_cons (ha : Guarded allowed a) (hc : isWordChar c = false)
    (hb : Guarded allowed b) : Guarded allowed (a ++ c :: b) := by
  intro before word after heq h hreserved
  rcases h.split hc heq with ⟨x, hx, hword⟩ | ⟨x, rfl, hx, hword⟩
  · exact ha hx hword hreserved
  · rcases hb hx hword hreserved with hallowed | hat
    · exact .inl hallowed
    · rw [getLast?_append_cons, hat]
      exact .inr rfl

theorem guarded_of_forall_not (h : ∀ c ∈ a, isWordChar c = false) : Guarded allowed a := by
  rintro before word after rfl hword -
  obtain ⟨c, rest, rfl⟩ := List.exists_cons_of_ne_nil hword.ne_nil
  have hfirst := hword.word c List.mem_cons_self
  rw [h c (by simp)] at hfirst
  contradiction

theorem Guarded.append_of_forall_not (ha : Guarded allowed a)
    (h : ∀ c ∈ b, isWordChar c = false) : Guarded allowed (a ++ b) := by
  cases b with
  | nil => rwa [List.append_nil]
  | cons c b =>
    exact ha.append_cons (h c List.mem_cons_self)
      (guarded_of_forall_not fun d hd => h d (List.mem_cons_of_mem c hd))

theorem guarded_word {s : String} (hs : ∀ c ∈ s.toList, isWordChar c = true)
    (hallowed : s ∈ keywords → allowed s) : Guarded allowed s.toList := by
  intro before word after heq h hreserved
  obtain ⟨-, hword⟩ := h.eq_of_forall hs heq
  rw [hword, String.ofList_toList] at hreserved ⊢
  exact .inl (hallowed hreserved)

/-! ### Parts of the name of a type -/

theorem guarded_safeName {name : String} (hname : IsIdentifier name) :
    Guarded allowed (naming.safeName name).toList := by
  by_cases hk : name ∈ keywords
  · rw [safeName_of_mem hk, String.toList_append]
    -- The word behind the at sign is the name, whatever it is.
    intro before word after heq h _
    rcases h.split (a := []) rfl heq with ⟨x, hx, hword⟩ | ⟨x, rfl, hx, hword⟩
    · have hnil := List.nil_eq_append_iff.mp hx
      exact absurd (List.append_eq_nil_iff.mp hnil.1).2 h.ne_nil
    · obtain ⟨rfl, -⟩ := hword.eq_of_forall hname.2 hx
      exact .inr rfl
  · rw [safeName_of_notMem hk]
    exact guarded_word hname.2 fun h => absurd h hk

/-- The text is one of the identifiers that a namespace is joined of. -/
def IsSegment (segment path : String) : Prop :=
  ∃ parts : List String, path = String.intercalate "." parts ∧
    (∀ p ∈ parts, IsIdentifier p) ∧ segment ∈ parts

/-- Parts are put on one by one, each with its separator. -/
theorem Guarded.append_flatMap {α : Type} {f : α → List Char} {xs : List α}
    (hf : ∀ x ∈ xs, ∀ a, Guarded allowed a → Guarded allowed (a ++ f x))
    (ha : Guarded allowed a) : Guarded allowed (a ++ xs.flatMap f) := by
  induction xs generalizing a with
  | nil => rwa [List.flatMap_nil, List.append_nil]
  | cons x xs ih =>
    rw [List.flatMap_cons, ← List.append_assoc]
    exact ih (fun y hy => hf y (List.mem_cons_of_mem x hy)) (hf x List.mem_cons_self a ha)

theorem guarded_path {path : String} (hpath : IsPath path)
    (hallowed : ∀ s, IsSegment s path → allowed s) : Guarded allowed path.toList := by
  obtain ⟨parts, hne, hparts, rfl⟩ := hpath
  have hall : ∀ p ∈ parts, Guarded allowed p.toList := fun p hp =>
    guarded_word (hparts p hp).2 fun _ => hallowed p ⟨parts, rfl, hparts, hp⟩
  clear hallowed
  obtain ⟨p, ps, rfl⟩ := List.exists_cons_of_ne_nil hne
  rw [Text.toList_intercalate_cons]
  refine Guarded.append_flatMap (fun q hq a ha => ?_) (hall p List.mem_cons_self)
  exact ha.append_cons rfl (hall q (List.mem_cons_of_mem p hq))

variable {full : Bool}

theorem guarded_headText {path : Option String} {name : String} (hpath : ∀ p ∈ path, IsPath p)
    (hname : IsIdentifier name)
    (hallowed : full = true → ∀ p ∈ path, ∀ s, IsSegment s p → allowed s) :
    Guarded allowed (headText full path name) := by
  rw [headText, String.toList_append]
  unfold qualifier
  split
  · next p =>
    rw [String.toList_append, List.append_assoc]
    exact (guarded_path (hpath p rfl) (hallowed rfl p rfl)).append_cons rfl
      (guarded_safeName hname)
  · exact guarded_safeName hname

theorem isWordChar_of_mem_specifiers {rs : List UInt8} :
    ∀ c ∈ specifiers rs, isWordChar c = false := by
  intro c hc
  obtain ⟨r, -, hr⟩ := List.mem_flatMap.mp hc
  rw [toList_rankSpecifier, List.mem_cons, List.mem_append, List.mem_replicate,
    List.mem_singleton] at hr
  rcases hr with rfl | ⟨-, rfl⟩ | rfl <;> rfl

/-- If its core is guarded, so is the name of a chain of arrays. -/
theorem guarded_of_core {t : TypeRef} (h : Guarded allowed (nameText full t.core)) :
    Guarded allowed (nameText full t) := by
  rw [nameText_eq]
  exact h.append_of_forall_not isWordChar_of_mem_specifiers

/-! ### Reserved words in the name of a type -/

/-- The names and namespaces of a node can be spelled. -/
def HasIdentifiers : TypeRef → Prop
  | .named path name _ => (∀ p ∈ path, IsPath p) ∧ IsIdentifier name
  | .primitive _ | .nullable _ | .array .. => True

/-- The reserved words that stand without an at sign in the name of a type. -/
def IsUnescaped (full : Bool) (t : TypeRef) (s : String) : Prop :=
  (∃ p, .primitive p ∈ t.nodes ∧ s = keyword p) ∨
    full = true ∧ ∃ path name args, .named (some path) name args ∈ t.nodes ∧ IsSegment s path

variable {root : TypeRef}

mutual

theorem guarded_core (hroot : ∀ u ∈ root.nodes, HasIdentifiers u) (t : TypeRef)
    (ht : t.nodes ⊆ root.nodes) :
    Guarded (IsUnescaped full root) (nameText full t.core) := by
  match t with
  | .primitive p =>
    exact guarded_word (isIdentifier_keyword p).2 fun _ =>
      .inl ⟨p, ht List.mem_cons_self, rfl⟩
  | .nullable t =>
    rw [TypeRef.core, nameText_nullable]
    · have hinner := guarded_core hroot t fun u hu => ht (List.mem_cons_of_mem _ hu)
      exact (guarded_of_core hinner).append_of_forall_not (by simp; rfl)
    · nofun
  | .array e r => exact guarded_core hroot e fun u hu => ht (List.mem_cons_of_mem _ hu)
  | .named path name args =>
    have hnode : TypeRef.named path name args ∈ root.nodes := ht List.mem_cons_self
    obtain ⟨hpath, hname⟩ := hroot _ hnode
    have hhead : Guarded (IsUnescaped full root) (headText full path name) := by
      refine guarded_headText hpath hname fun hfull p hp s hs => .inr ⟨hfull, p, name, args, ?_, hs⟩
      rwa [← Option.mem_def.mp hp]
    have hargs := guarded_arguments hroot args fun u hu => ht (List.mem_cons_of_mem _ hu)
    rw [TypeRef.core]
    · cases args with
      | nil => rwa [nameText_named_nil]
      | cons t ts =>
        have hfurther : Guarded (IsUnescaped full root)
            (nameText full t ++ furtherArguments full ts) := by
          refine Guarded.append_flatMap (fun u hu a ha => ?_) (hargs t List.mem_cons_self)
          have hspace := (guarded_of_forall_not (a := []) nofun).append_cons (c := ' ') rfl
            (hargs u (List.mem_cons_of_mem t hu))
          exact ha.append_cons rfl hspace
        rw [nameText_named_cons]
        exact (hhead.append_cons rfl hfurther).append_of_forall_not (by simp; rfl)
    · nofun

theorem guarded_arguments (hroot : ∀ u ∈ root.nodes, HasIdentifiers u) (ts : List TypeRef)
    (hts : TypeRef.nodesOf ts ⊆ root.nodes) :
    ∀ t ∈ ts, Guarded (IsUnescaped full root) (nameText full t) := by
  match ts with
  | [] => nofun
  | t :: ts =>
    rw [List.forall_mem_cons]
    constructor
    · exact guarded_of_core (guarded_core hroot t fun u hu => hts (List.mem_append_left _ hu))
    · exact guarded_arguments hroot ts fun u hu => hts (List.mem_append_right _ hu)

end

/-- A reserved word in the name of a type is the keyword of a built-in type in it, or escaped, or
part of a namespace that is written in full. -/
theorem reservedWord_cases (full : Bool) (t : TypeRef)
    (hnames : ∀ u ∈ t.nodes, HasIdentifiers u) {before word after : List Char}
    (htext : ((namer full).nameOf t).toList = before ++ word ++ after)
    (hword : IsWordAt before word after) (hreserved : String.ofList word ∈ keywords) :
    (∃ p, .primitive p ∈ t.nodes ∧ String.ofList word = keyword p) ∨ before.getLast? = some '@' ∨
      full = true ∧ ∃ path name args, .named (some path) name args ∈ t.nodes ∧
        IsSegment (String.ofList word) path := by
  have hguarded : Guarded (IsUnescaped full t) (nameText full t) :=
    guarded_of_core (guarded_core hnames t (List.Subset.refl _))
  rcases hguarded htext hword hreserved with (hkeyword | hsegment) | hat
  · exact .inl hkeyword
  · exact .inr (.inr hsegment)
  · exact .inr (.inl hat)

/-- A generic type whose name, argument and namespace are all spelled like keywords. -/
def keywordList : TypeRef := .named (some "App.event") "class" [.primitive (.integral .int32)]

theorem hasIdentifiers_keywordList : ∀ u ∈ keywordList.nodes, HasIdentifiers u := by
  have hpath : IsPath "App.event" := ⟨["App", "event"], by decide, by decide, by decide⟩
  intro u hu
  simp only [keywordList, TypeRef.nodes, TypeRef.nodesOf, List.append_nil, List.mem_cons,
    List.not_mem_nil, or_false] at hu
  rcases hu with rfl | rfl
  · refine ⟨?_, by decide⟩
    rintro p ⟨⟩
    exact hpath
  · trivial

theorem reservedWord_cases_class :
    (∀ u ∈ keywordList.nodes, HasIdentifiers u) ∧
      ((namer true).nameOf keywordList).toList
        = "App.event.@".toList ++ "class".toList ++ "<int>".toList ∧
      IsWordAt "App.event.@".toList "class".toList "<int>".toList ∧
      String.ofList "class".toList ∈ keywords ∧
      ((∃ p, .primitive p ∈ keywordList.nodes ∧ String.ofList "class".toList = keyword p) ∨
        "App.event.@".toList.getLast? = some '@' ∨
        true = true ∧ ∃ path name args, .named (some path) name args ∈ keywordList.nodes ∧
          IsSegment (String.ofList "class".toList) path) := by
  have htext : ((namer true).nameOf keywordList).toList
      = "App.event.@".toList ++ "class".toList ++ "<int>".toList := by decide +kernel
  have hword : IsWordAt "App.event.@".toList "class".toList "<int>".toList :=
    ⟨by decide, by simp; decide, by simp; decide, by simp; decide⟩
  have hreserved : String.ofList "class".toList ∈ keywords := by decide +kernel
  exact ⟨hasIdentifiers_keywordList, htext, hword, hreserved,
    reservedWord_cases true keywordList hasIdentifiers_keywordList htext hword hreserved⟩

/-- A reserved word in a namespace is neither escaped nor a keyword that is meant. -/
theorem reservedWord_in_namespace :
    ¬∀ (full : Bool) (t : TypeRef), (∀ u ∈ t.nodes, HasIdentifiers u) →
      ∀ before word after : List Char,
        ((namer full).nameOf t).toList = before ++ word ++ after →
        IsWordAt before word after → String.ofList word ∈ keywords →
        (∃ p, .primitive p ∈ t.nodes ∧ String.ofList word = keyword p) ∨
          before.getLast? = some '@' := by
  intro h
  have htext : ((namer true).nameOf keywordList).toList
      = "App.".toList ++ "event".toList ++ ".@class<int>".toList := by decide +kernel
  have hword : IsWordAt "App.".toList "event".toList ".@class<int>".toList :=
    ⟨by decide, by simp; decide, by simp; decide, by simp; decide⟩
  rcases h true keywordList hasIdentifiers_keywordList _ _ _ htext hword (by decide +kernel) with
    ⟨p, hp, hkeyword⟩ | hat
  · -- The only built-in type in it is `int`.
    simp only [keywordList, TypeRef.nodes, TypeRef.nodesOf, List.append_nil, List.mem_cons,
      List.not_mem_nil, or_false, reduceCtorEq, false_or] at hp
    cases hp
    exact absurd hkeyword (by decide +kernel)
  · cases hat

end CSharp

end LiteralForm
