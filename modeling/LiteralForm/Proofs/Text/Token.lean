/-
String and character literals as C# tokens.

A reader of C# source takes a token off the front of a text and leaves the rest:

* `readItem` reads items and nothing else (`readItem_of_item`, `exists_item_of_readItem`);
* `readString` reads a string token in quoted or verbatim form, `readChar` a character token;
* `readQuoted_escape`, `readVerbatim_doubleQuotes`: each of the two encodings of a string is
  read back from in front of any text that cannot belong to the token;
* `literals_are_tokens`: every literal that is written is one whole token, and it stands for the
  text or the character it was written for.

Design notes: the reader goes by the tables of items and by a list of line terminators, so that what
it takes for an escape or for the end of a line does not depend on what the writer does.  An item
that `escapeChar` writes is read back whatever follows it (`readItem_escapeChar`), since escapes by
number have as many digits as the reader takes at most.
-/
import LiteralForm.Entries
import LiteralForm.Proofs.Text.Item
import LiteralForm.Text.Literal

namespace LiteralForm.Text

/-! ### Reading items -/

/-- The characters that end a line of source text. -/
def lineTerminators : List Char := ['\n', '\r', '\x85', '\u2028', '\u2029']

/-- The character that stands at both ends of a token. -/
def Quote.char : Quote → Char
  | .single => '\x27'
  | .double => '\x22'

/-- The value of a hexadecimal digit, which is its place in the table of its case. -/
def digitValue? (c : Char) : Option Nat := (lowerDigits.idxOf? c).or (upperDigits.idxOf? c)

/-- The number that a list of hexadecimal digits denotes. -/
def digitsValue (digits : List Char) : Nat :=
  Nat.ofDigits 16 (digits.filterMap digitValue?).reverse

/-- Reads an escape behind its backslash: the character it stands for and the text after it. -/
def readEscaped : List Char → Option (Char × List Char)
  | [] => none
  | kind :: rest =>
    match Entries.find? kind simpleEscapes with
    | some c => some (c, rest)
    | none =>
      (Entries.find? kind numberEscapes).bind fun (least, most) =>
        let digits := (rest.take most).takeWhile fun c => (digitValue? c).isSome
        if least ≤ digits.length ∧ (digitsValue digits).isValidChar then
          some (Char.ofNat (digitsValue digits), rest.drop digits.length)
        else none

/-- Reads one item of a token, a plain character or an escape: the character it stands for and
the text after it. -/
def readItem (q : Quote) : List Char → Option (Char × List Char)
  | [] => none
  | c :: rest =>
    if c = '\\' then readEscaped rest
    else if c = q.char ∨ c ∈ lineTerminators then none
    else some (c, rest)

theorem digitValue?_eq_some_iff {c : Char} {n : Nat} :
    digitValue? c = some n ↔ IsHexDigit c n := by
  constructor
  · intro h
    rw [digitValue?, Option.or_eq_some_iff] at h
    rcases h with h | ⟨-, h⟩
    · obtain ⟨hlt, hc, -⟩ := List.idxOf?_eq_some_iff.mp h
      exact .inl (List.getElem?_eq_some_iff.mpr ⟨hlt, hc⟩)
    · obtain ⟨hlt, hc, -⟩ := List.idxOf?_eq_some_iff.mp h
      exact .inr (List.getElem?_eq_some_iff.mpr ⟨hlt, hc⟩)
  · exact fun h => h.eq_some (by decide) (by decide)

theorem isSome_digitValue?_iff {c : Char} :
    (digitValue? c).isSome = true ↔ ∃ n, IsHexDigit c n := by
  rw [Option.isSome_iff_exists]
  exact exists_congr fun n => digitValue?_eq_some_iff

theorem IsHexNumber.digitsValue_eq {digits : List Char} {n : Nat} (h : IsHexNumber digits n) :
    digitsValue digits = n := by
  obtain ⟨ns, hns, rfl⟩ := h
  have hvalues : digits.filterMap digitValue? = ns := by
    induction hns with
    | nil => rfl
    | cons hd _ ih => rw [List.filterMap_cons_some (digitValue?_eq_some_iff.mpr hd), ih]
  rw [digitsValue, hvalues]

/-! ### The items that are read -/

theorem find?_simpleEscapes {kind c : Char} (h : (kind, c) ∈ simpleEscapes) :
    Entries.find? kind simpleEscapes = some c :=
  Entries.find?_of_mem (by decide) h

theorem find?_numberEscapes {kind : Char} {bounds : Nat × Nat}
    (h : (kind, bounds) ∈ numberEscapes) :
    Entries.find? kind simpleEscapes = none ∧ Entries.find? kind numberEscapes = some bounds := by
  have hnot : ∀ p ∈ numberEscapes, p.1 ∉ simpleEscapes.map Prod.fst := by decide
  exact ⟨Entries.find?_eq_none_iff.mpr (hnot (kind, bounds) h), Entries.find?_of_mem (by decide) h⟩

/-- What is read as an escape is an item. -/
theorem exists_item_of_readEscaped {text rest : List Char} {c : Char}
    (h : readEscaped text = some (c, rest)) :
    ∃ item, '\\' :: text = item ++ rest ∧ Item item c rest := by
  cases text with
  | nil => cases h
  | cons kind text =>
    rw [readEscaped] at h
    cases hsimple : Entries.find? kind simpleEscapes with
    | some d =>
      rw [hsimple] at h
      cases h
      exact ⟨['\\', kind], rfl, .simple (Entries.mem_of_find? hsimple)⟩
    | none =>
      rw [hsimple] at h
      obtain ⟨⟨least, most⟩, hnumber, h⟩ := Option.bind_eq_some_iff.mp h
      obtain ⟨digits, left, rfl, run⟩ := exists_longestRun most text
      dsimp only at h
      rw [run.takeWhile_eq isSome_digitValue?_iff, Option.ite_none_right_eq_some] at h
      obtain ⟨⟨enough, hvalid⟩, h⟩ := h
      cases h
      obtain ⟨n, hn⟩ := exists_isHexNumber run.hex
      rw [hn.digitsValue_eq] at hvalid ⊢
      rw [List.drop_left]
      refine ⟨'\\' :: kind :: digits, rfl, .number (Entries.mem_of_find? hnumber) run enough ?_⟩
      rw [Char.ofNat, dif_pos hvalid]
      exact hn

/-- An item is read as the character it stands for, unless the character stands for itself and ends
the token or the line. -/
theorem readItem_of_item {q : Quote} {item rest : List Char} {c : Char} (h : Item item c rest)
    (hplain : item = [c] → c ≠ q.char ∧ c ∉ lineTerminators) :
    readItem q (item ++ rest) = some (c, rest) := by
  cases h with
  | plain hslash =>
    obtain ⟨hquote, hline⟩ := hplain rfl
    rw [List.singleton_append, readItem, if_neg hslash, if_neg (by simp [hquote, hline])]
  | simple hkind =>
    show readItem q ('\\' :: _ :: rest) = _
    rw [readItem, if_pos rfl, readEscaped, find?_simpleEscapes hkind]
  | @number kind _ least most digits _ hkind run enough value =>
    obtain ⟨hsimple, hnumber⟩ := find?_numberEscapes hkind
    have hvalid : c.toNat.isValidChar := c.valid
    show readItem q ('\\' :: kind :: (digits ++ rest)) = _
    rw [readItem, if_pos rfl, readEscaped, hsimple, hnumber]
    show (if _ then _ else _) = _
    rw [run.takeWhile_eq isSome_digitValue?_iff, value.digitsValue_eq, if_pos ⟨enough, hvalid⟩,
      Char.ofNat_toNat, List.drop_left]

/-- What is read is an item. -/
theorem exists_item_of_readItem {q : Quote} {text rest : List Char} {c : Char}
    (h : readItem q text = some (c, rest)) : ∃ item, text = item ++ rest ∧ Item item c rest := by
  cases text with
  | nil => cases h
  | cons a text =>
    rw [readItem] at h
    split at h
    · next hslash =>
      rw [hslash]
      exact exists_item_of_readEscaped h
    · next hslash =>
      rw [Option.ite_none_left_eq_some] at h
      cases h.2
      exact ⟨[c], rfl, .plain hslash⟩

theorem readItem_length_lt {q : Quote} {text rest : List Char} {c : Char}
    (h : readItem q text = some (c, rest)) : rest.length < text.length := by
  obtain ⟨item, rfl, hitem⟩ := exists_item_of_readItem h
  have hpos := hitem.length_pos
  rw [List.length_append]
  omega

/-- Every character, escaped between quotes of its kind, is read back before any text. -/
theorem readItem_escapeChar (q : Quote) (c : Char) (rest : List Char) :
    readItem q (escapeChar q c ++ rest) = some (c, rest) := by
  refine readItem_of_item (item_escapeChar q c rest) fun hplain => ?_
  -- The writer escapes its own quote and all that ends a line.
  have hquote : escapeChar q q.char ≠ [q.char] := by cases q <;> decide
  have hline : lineTerminators.all (fun d => escapeChar q d ≠ [d]) = true := by
    cases q <;> decide
  constructor
  · rintro rfl
    exact hquote hplain
  · intro hc
    exact of_decide_eq_true (List.all_eq_true.mp hline c hc) hplain

/-! ### Reading tokens -/

/-- Reads the items of a token up to its closing quote. -/
def readQuoted (q : Quote) (text : List Char) : Option (List Char × List Char) :=
  if text.head? = some q.char then some ([], text.tail)
  else
    match h : readItem q text with
    | none => none
    | some (c, rest) =>
      have := readItem_length_lt h
      (readQuoted q rest).map fun (s, left) => (c :: s, left)
termination_by text.length

/-- Reads the rest of a verbatim token, in which two double quotes stand for one. -/
def readVerbatim : List Char → Option (List Char × List Char)
  | [] => none
  | '\x22' :: '\x22' :: rest => (readVerbatim rest).map fun (s, left) => ('\x22' :: s, left)
  | '\x22' :: rest => some ([], rest)
  | c :: rest => (readVerbatim rest).map fun (s, left) => (c :: s, left)

/-- Reads a string token of either form. -/
def readString : List Char → Option (List Char × List Char)
  | '@' :: '\x22' :: rest => readVerbatim rest
  | '\x22' :: rest => readQuoted .double rest
  | _ => none

/-- Reads a character token, which holds a single item of one UTF-16 unit. -/
def readChar : List Char → Option (Char × List Char)
  | '\x27' :: rest =>
    match readItem .single rest with
    | some (c, '\x27' :: left) => if c.toNat ≤ 0xffff then some (c, left) else none
    | _ => none
  | _ => none

/-! ### Literals are read back -/

theorem readQuoted_close (q : Quote) (rest : List Char) :
    readQuoted q (q.char :: rest) = some ([], rest) := by
  rw [readQuoted]
  simp

/-- A closing quote is no item. -/
theorem readItem_close (q : Quote) (rest : List Char) : readItem q (q.char :: rest) = none := by
  cases q <;> simp [readItem, Quote.char]

/-- An item at the front is read before the others. -/
theorem readQuoted_item {q : Quote} {text rest : List Char} {c : Char}
    (h : readItem q text = some (c, rest)) :
    readQuoted q text = (readQuoted q rest).map fun (s, left) => (c :: s, left) := by
  have hhead : text.head? ≠ some q.char := by
    intro hq
    obtain ⟨tail, rfl⟩ := List.head?_eq_some_iff.mp hq
    rw [readItem_close] at h
    simp at h
  rw [readQuoted, if_neg hhead]
  split
  · next hn => simp [hn] at h
  · next c' rest' hs =>
    rw [hs] at h
    cases h
    rfl

theorem readQuoted_escape (s rest : List Char) :
    readQuoted .double (escape s ++ '\x22' :: rest) = some (s, rest) := by
  induction s with
  | nil => exact readQuoted_close .double rest
  | cons c s ih =>
    rw [escape_cons, List.append_assoc, readQuoted_item (readItem_escapeChar .double c _), ih]
    rfl

/-- A verbatim text is read back before any text that does not begin with a double quote. -/
theorem readVerbatim_doubleQuotes (s : List Char) {rest : List Char}
    (hr : rest.head? ≠ some '\x22') :
    readVerbatim (doubleQuotes s ++ '\x22' :: rest) = some (s, rest) := by
  induction s with
  | nil =>
    cases rest with
    | nil => rfl
    | cons a rest =>
      have ha : a ≠ '\x22' := by simpa using hr
      simp [doubleQuotes, readVerbatim, ha]
  | cons c s ih =>
    by_cases hc : c = '\x22'
    · subst hc
      simp only [doubleQuotes, List.flatMap_cons, if_true, List.append_assoc] at ih ⊢
      simp only [List.cons_append, List.nil_append, readVerbatim]
      rw [ih]
      rfl
    · simp only [doubleQuotes, List.flatMap_cons, if_neg hc, List.append_assoc] at ih ⊢
      simp only [List.cons_append, List.nil_append]
      rw [readVerbatim, ih]
      · rfl
      all_goals simp [hc]

theorem readString_stringLiteral (threshold : Nat) (s : String) :
    readString (stringLiteral threshold s).toList = some (s.toList, []) := by
  rw [stringLiteral, String.toList_ofList]
  split
  · exact readVerbatim_doubleQuotes s.toList (show [].head? ≠ some _ by simp)
  · exact readQuoted_escape s.toList []

theorem readChar_charLiteral {c : Char} {code : String} (h : charLiteral? c = some code) :
    readChar code.toList = some (c, []) := by
  rw [charLiteral?, Option.ite_none_right_eq_some, Option.some.injEq] at h
  obtain ⟨hc, rfl⟩ := h
  simp only [String.toList_ofList, List.cons_append, readChar]
  rw [readItem_escapeChar .single c ['\x27']]
  simp [hc]

/-- Every string literal is one whole token that stands for the string, in either form; a
character has a literal exactly if it is one UTF-16 unit, and that literal is one whole token
that stands for the character. -/
theorem literals_are_tokens :
    (∀ (threshold : Nat) (s : String),
      readString (stringLiteral threshold s).toList = some (s.toList, [])) ∧
    ∀ c : Char, (charLiteral? c).map (fun t => readChar t.toList)
      = if c.toNat ≤ 0xffff then some (some (c, [])) else none := by
  refine ⟨readString_stringLiteral, fun c => ?_⟩
  by_cases hc : c.toNat ≤ 0xffff
  · obtain ⟨code, hcode⟩ : ∃ code, charLiteral? c = some code := ⟨_, if_pos hc⟩
    rw [hcode, if_pos hc, Option.map_some, readChar_charLiteral hcode]
  · rw [charLiteral?, if_neg hc, if_neg hc, Option.map_none]

end LiteralForm.Text
