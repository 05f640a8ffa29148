/-
Documents are read back from their texts.

* `WellFormed`: the documents whose strings denote texts and whose numbers are numbers of JSON;
* `readItems_itemChars`, `readMembers_memberChars`: a list of documents is read back if each
  document of it is;
* `parse_text`: a well-formed document is read back from its text.

Design notes: a reader makes two calls for a character at most, and every document has a
character, so twice the length of a text is enough for a document and one more for a list.  What
follows a document is a comma or a closing bracket, which does not continue a number.
-/
import LiteralForm.Proofs.Json.Scalar

namespace LiteralForm.Json

/-- Every string and key denotes a text, and every number is one of JSON. -/
inductive WellFormed : Json → Prop
  | null : WellFormed null
  | bool (b : Bool) : WellFormed (bool b)
  | number {n : Numeral} (h : n.IsJson) : WellFormed (number n)
  | string (s : String) : WellFormed (string (some s))
  | array {items : List Json} (h : ∀ j ∈ items, WellFormed j) : WellFormed (array items)
  | object {members : List (Option String × Json)} (key : ∀ m ∈ members, m.1.isSome)
    (h : ∀ m ∈ members, WellFormed m.2) : WellFormed (object members)

/-! ### The first character -/

theorem skipBlanks_cons {c : Char} (h : isBlank c = false) (s : List Char) :
    skipBlanks (c :: s) = c :: s := by
  rw [skipBlanks, List.dropWhile_cons, h, if_neg Bool.false_ne_true]

theorem startsNumber_text {n : Numeral} (h : n.IsJson) (rest : List Char) :
    Numeral.startsNumber (n.text true ++ rest) = true := by
  rw [Numeral.text, List.append_assoc, List.append_assoc, List.append_assoc]
  exact Numeral.startsNumber_signText n.negative h.whole _

theorem exists_cons_of_startsNumber {text : List Char} (h : Numeral.startsNumber text = true) :
    ∃ c s, text = c :: s ∧ (c = '-' ∨ c.isDigit = true) := by
  cases text with
  | nil => cases h
  | cons c s => exact ⟨c, s, rfl, by simpa [Numeral.startsNumber] using h⟩

/-- A digit is no blank, and neither is a minus sign. -/
theorem isBlank_of_startsNumber {c : Char} (h : c = '-' ∨ c.isDigit = true) :
    isBlank c = false := by
  rcases h with rfl | h
  · rfl
  · simp [isBlank, ne_of_isDigit h]

/-- A document begins neither with a blank nor with the bracket that closes an array. -/
theorem WellFormed.exists_chars_cons {j : Json} (h : WellFormed j) :
    ∃ c s, j.chars = c :: s ∧ isBlank c = false ∧ c ≠ ']' := by
  cases h with
  | null => exact ⟨_, _, rfl, rfl, by decide⟩
  | bool b => cases b <;> exact ⟨_, _, rfl, rfl, by decide⟩
  | @number n hn =>
    obtain ⟨c, s, hs, hc⟩ := exists_cons_of_startsNumber (startsNumber_text hn [])
    rw [List.append_nil] at hs
    refine ⟨c, s, hs, isBlank_of_startsNumber hc, ?_⟩
    rintro rfl
    revert hc
    decide
  | string s => exact ⟨_, _, rfl, rfl, by decide⟩
  | array _ => exact ⟨_, _, rfl, rfl, by decide⟩
  | object _ _ => exact ⟨_, _, rfl, rfl, by decide⟩

/-! ### Words and numbers -/

theorem dropWord?_append (word rest : List Char) : dropWord? word (word ++ rest) = some rest := by
  induction word with
  | nil => cases rest <;> rfl
  | cons c word ih => rw [List.cons_append, dropWord?, if_pos rfl, ih]

/-- What begins like a number is read as one. -/
theorem readValue_of_startsNumber {text : List Char} (h : Numeral.startsNumber text = true)
    (calls : Nat) : readValue (calls + 1) text
      = (readNumber text).map fun r => (number r.1, r.2) := by
  obtain ⟨c, s, rfl, hc⟩ := exists_cons_of_startsNumber h
  have hne : ∀ d : Char, d ≠ '-' → d.isDigit = false → ¬ ∃ rest, c :: s = d :: rest := by
    rintro d hminus hdigit ⟨rest, heq⟩
    obtain ⟨rfl, -⟩ := List.cons.inj heq
    rcases hc with hc | hc
    · exact hminus hc
    · exact ne_of_isDigit hc hdigit rfl
  rw [readValue, skipBlanks_cons (isBlank_of_startsNumber hc)]
  split
  · next heq => exact absurd ⟨_, heq⟩ (hne '\x7b' (by decide) rfl)
  · next heq => exact absurd ⟨_, heq⟩ (hne '[' (by decide) rfl)
  · next heq => exact absurd ⟨_, heq⟩ (hne '\x22' (by decide) rfl)
  · next heq => exact absurd ⟨_, heq⟩ (hne 'n' (by decide) rfl)
  · next heq => exact absurd ⟨_, heq⟩ (hne 't' (by decide) rfl)
  · next heq => exact absurd ⟨_, heq⟩ (hne 'f' (by decide) rfl)
  · rfl

/-! ### Documents in front of a text -/

/-- The document is read back in front of every text that does not continue it. -/
def ReadsBack (j : Json) : Prop :=
  ∀ (calls : Nat) (rest : List Char), 2 * j.chars.length ≤ calls → EndsNumber rest →
    readValue calls (j.chars ++ rest) = some (j, rest)

theorem endsNumber_cons {c : Char} (h : c.isDigit = false ∧ c ≠ '.' ∧ c ≠ 'e' ∧ c ≠ 'E')
    (rest : List Char) : EndsNumber (c :: rest) := by
  rintro d ⟨⟩
  exact h

theorem itemChars_cons_cons (j k : Json) (js : List Json) :
    itemChars (j :: k :: js) = j.chars ++ ',' :: itemChars (k :: js) := by
  rw [itemChars]
  exact List.cons_ne_nil k js

theorem memberChars_cons_cons (k : Option String) (j : Json) (m : Option String × Json)
    (ms : List (Option String × Json)) :
    memberChars ((k, j) :: m :: ms) = stringText k ++ ':' :: j.chars ++ ',' :: memberChars (m :: ms)
    := by
  rw [memberChars]
  exact List.cons_ne_nil m ms

/-- The items of an array are read back, if each of them is. -/
theorem readItems_itemChars {j : Json} {js : List Json} (h : ∀ i ∈ j :: js, ReadsBack i)
    {calls : Nat} (hcalls : 2 * (itemChars (j :: js)).length < calls) (rest : List Char) :
    readItems calls (itemChars (j :: js) ++ ']' :: rest) = some (j :: js, rest) := by
  induction js generalizing j calls with
  | nil =>
    rw [itemChars] at hcalls ⊢
    obtain ⟨n, rfl⟩ : ∃ n, calls = n + 1 := ⟨calls - 1, by omega⟩
    have hj := h j (List.mem_singleton_self j) n (']' :: rest) (by omega)
      (endsNumber_cons (by decide) rest)
    rw [readItems, hj]
    rfl
  | cons k ks ih =>
    rw [itemChars_cons_cons, List.length_append, List.length_cons] at hcalls
    rw [itemChars_cons_cons, List.append_assoc, List.cons_append]
    obtain ⟨n, rfl⟩ : ∃ n, calls = n + 1 := ⟨calls - 1, by omega⟩
    have hj := h j List.mem_cons_self n (',' :: (itemChars (k :: ks) ++ ']' :: rest)) (by omega)
      (endsNumber_cons (by decide) _)
    have hks : readItems n (itemChars (k :: ks) ++ ']' :: rest) = some (k :: ks, rest) :=
      ih (fun i hi => h i (List.mem_cons_of_mem j hi)) (by omega)
    rw [readItems, hj]
    show (readItems n (itemChars (k :: ks) ++ ']' :: rest)).map _ = _
    rw [hks, Option.map_some]

theorem stringText_append (k : String) (rest : List Char) :
    stringText (some k) ++ rest = '\x22' :: (k.toList.flatMap charText ++ '\x22' :: rest) := by
  rw [stringText, List.cons_append, List.cons_append, List.append_assoc, List.singleton_append]

theorem readMembers_last {j : Json} (hj : ReadsBack j) (k : String) {calls : Nat}
    (hcalls : 2 * j.chars.length ≤ calls) (rest : List Char) :
    readMembers (calls + 1) (stringText (some k) ++ ':' :: j.chars ++ '\x7d' :: rest)
      = some ([(some k, j)], rest) := by
  have hread := hj calls ('\x7d' :: rest) hcalls (endsNumber_cons (by decide) rest)
  rw [List.append_assoc, stringText_append, readMembers, skipBlanks_cons rfl]
  simp only [readString_stringText, List.cons_append, skipBlanks_cons (c := ':') rfl, hread,
    skipBlanks_cons (c := '\x7d') rfl]

theorem readMembers_next {j : Json} (hj : ReadsBack j) (k : String) {calls : Nat}
    (hcalls : 2 * j.chars.length ≤ calls) (rest : List Char) :
    readMembers (calls + 1) (stringText (some k) ++ ':' :: j.chars ++ ',' :: rest)
      = (readMembers calls rest).map fun r => ((some k, j) :: r.1, r.2) := by
  have hread := hj calls (',' :: rest) hcalls (endsNumber_cons (by decide) rest)
  rw [List.append_assoc, stringText_append, readMembers, skipBlanks_cons rfl]
  simp only [readString_stringText, List.cons_append, skipBlanks_cons (c := ':') rfl, hread,
    skipBlanks_cons (c := ',') rfl]

/-- The members of an object are read back, if each of their documents is. -/
theorem readMembers_memberChars {m : Option String × Json} {ms : List (Option String × Json)}
    (hkey : ∀ i ∈ m :: ms, i.1.isSome) (h : ∀ i ∈ m :: ms, ReadsBack i.2) {calls : Nat}
    (hcalls : 2 * (memberChars (m :: ms)).length < calls) (rest : List Char) :
    readMembers calls (memberChars (m :: ms) ++ '\x7d' :: rest) = some (m :: ms, rest) := by
  induction ms generalizing m calls with
  | nil =>
    obtain ⟨key, j⟩ := m
    obtain ⟨k, rfl⟩ := Option.isSome_iff_exists.mp (hkey _ List.mem_cons_self)
    have hj : ReadsBack j := h _ List.mem_cons_self
    rw [memberChars, List.length_append, List.length_cons] at hcalls
    obtain ⟨n, rfl⟩ : ∃ n, calls = n + 1 := ⟨calls - 1, by omega⟩
    rw [memberChars, readMembers_last hj k (by omega)]
  | cons i ms ih =>
    obtain ⟨key, j⟩ := m
    obtain ⟨k, rfl⟩ := Option.isSome_iff_exists.mp (hkey _ List.mem_cons_self)
    have hj : ReadsBack j := h _ List.mem_cons_self
    rw [memberChars_cons_cons] at hcalls ⊢
    simp only [List.length_append, List.length_cons] at hcalls
    obtain ⟨n, rfl⟩ : ∃ n, calls = n + 1 := ⟨calls - 1, by omega⟩
    have hms : readMembers n (memberChars (i :: ms) ++ '\x7d' :: rest) = some (i :: ms, rest) :=
      ih (fun i hi => hkey i (List.mem_cons_of_mem _ hi))
        (fun i hi => h i (List.mem_cons_of_mem _ hi)) (by omega)
    rw [List.append_assoc, List.cons_append, readMembers_next hj k (by omega), hms,
      Option.map_some]

/-! ### Whole documents -/

/-- Behind the bracket that opens an array, the items are read. -/
theorem readValue_items {c : Char} (hblank : isBlank c = false) (hc : c ≠ ']') (s : List Char)
    (calls : Nat) : readValue (calls + 1) ('[' :: c :: s)
      = (readItems calls (c :: s)).map fun r => (array r.1, r.2) := by
  rw [readValue, skipBlanks_cons rfl]
  simp only [skipBlanks_cons hblank]
  split
  · next heq => exact absurd (List.cons.inj heq).1 hc
  · rfl

/-- Behind the bracket that opens an object, the members are read. -/
theorem readValue_members {c : Char} (hblank : isBlank c = false) (hc : c ≠ '\x7d') (s : List Char)
    (calls : Nat) : readValue (calls + 1) ('\x7b' :: c :: s)
      = (readMembers calls (c :: s)).map fun r => (object r.1, r.2) := by
  rw [readValue, skipBlanks_cons rfl]
  simp only [skipBlanks_cons hblank]
  split
  · next heq => exact absurd (List.cons.inj heq).1 hc
  · rfl

theorem exists_itemChars_cons {j : Json} (h : WellFormed j) (js : List Json) :
    ∃ c s, itemChars (j :: js) = c :: s ∧ isBlank c = false ∧ c ≠ ']' := by
  obtain ⟨c, s, hs, hc⟩ := h.exists_chars_cons
  cases js with
  | nil => exact ⟨c, s, by rw [itemChars, hs], hc⟩
  | cons k ks =>
    refine ⟨c, s ++ ',' :: itemChars (k :: ks), ?_, hc⟩
    rw [itemChars_cons_cons, hs, List.cons_append]

theorem exists_memberChars_cons {m : Option String × Json} (hm : m.1.isSome)
    (ms : List (Option String × Json)) : ∃ s, memberChars (m :: ms) = '\x22' :: s := by
  obtain ⟨key, j⟩ := m
  obtain ⟨k, rfl⟩ := Option.isSome_iff_exists.mp hm
  cases ms with
  | nil => exact ⟨_, by rw [memberChars, stringText_append]⟩
  | cons i ms => exact ⟨_, by rw [memberChars_cons_cons, List.append_assoc, stringText_append]⟩

/-- The calls that a document needs are some calls. -/
theorem WellFormed.exists_calls {j : Json} (h : WellFormed j) {calls : Nat}
    (hcalls : 2 * j.chars.length ≤ calls) : ∃ n, calls = n + 1 := by
  obtain ⟨c, s, hs, -⟩ := h.exists_chars_cons
  rw [hs, List.length_cons] at hcalls
  exact ⟨calls - 1, by omega⟩

/-- A well-formed document is read back. -/
theorem WellFormed.readsBack {j : Json} (h : WellFormed j) : ReadsBack j := by
  induction h with
  | null =>
    intro calls rest hcalls _
    obtain ⟨n, rfl⟩ := null.exists_calls hcalls
    show (dropWord? "ull".toList ("ull".toList ++ rest)).map _ = _
    rw [dropWord?_append, Option.map_some]
  | bool b =>
    intro calls rest hcalls _
    obtain ⟨n, rfl⟩ := (bool b).exists_calls hcalls
    cases b with
    | true =>
      show (dropWord? "rue".toList ("rue".toList ++ rest)).map _ = _
      rw [dropWord?_append, Option.map_some]
    | false =>
      show (dropWord? "alse".toList ("alse".toList ++ rest)).map _ = _
      rw [dropWord?_append, Option.map_some]
  | number h =>
    intro calls rest hcalls hr
    obtain ⟨n, rfl⟩ := (number h).exists_calls hcalls
    rw [chars, readValue_of_startsNumber (startsNumber_text h rest), readNumber_text h hr,
      Option.map_some]
  | string s =>
    intro calls rest hcalls _
    obtain ⟨n, rfl⟩ := (string s).exists_calls hcalls
    rw [chars, stringText_append, readValue, skipBlanks_cons rfl]
    show (readString (s.toList.flatMap charText ++ '\x22' :: rest)).map _ = _
    rw [readString_stringText, Option.map_some]
  | @array items h ih =>
    intro calls rest hcalls _
    obtain ⟨n, rfl⟩ := (array h).exists_calls hcalls
    cases items with
    | nil => rfl
    | cons j js =>
      -- The brackets are two characters, so there are calls to spare for the list of items.
      obtain ⟨c, s, hs, hblank, hc⟩ := exists_itemChars_cons (h j List.mem_cons_self) js
      rw [chars] at hcalls ⊢
      simp only [List.length_append, List.length_cons, List.length_nil] at hcalls
      rw [List.cons_append, List.cons_append, List.append_assoc, List.singleton_append, hs,
        List.cons_append, readValue_items hblank hc, ← List.cons_append, ← hs,
        readItems_itemChars ih (by omega), Option.map_some]
  | @object members key h ih =>
    intro calls rest hcalls _
    obtain ⟨n, rfl⟩ := (object key h).exists_calls hcalls
    cases members with
    | nil => rfl
    | cons m ms =>
      obtain ⟨s, hs⟩ := exists_memberChars_cons (key m List.mem_cons_self) ms
      rw [chars] at hcalls ⊢
      simp only [List.length_append, List.length_cons, List.length_nil] at hcalls
      rw [List.cons_append, List.cons_append, List.append_assoc, List.singleton_append, hs,
        List.cons_append, readValue_members rfl (by decide), ← List.cons_append, ← hs,
        readMembers_memberChars key ih (by omega), Option.map_some]

/-- A well-formed document is read back from its text. -/
theorem parse_text {j : Json} (h : WellFormed j) : parse j.text = some j := by
  have hread := h.readsBack (2 * j.chars.length + 2) [] (by omega) nofun
  rw [List.append_nil] at hread
  rw [parse, text, String.toList_ofList, hread]
  rfl

end LiteralForm.Json
