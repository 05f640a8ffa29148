/-
Lines of TOML with a bare key and a value of one word.

* `scalar?_toDigits`: decimal digits are the integer they were written for;
* `readStatement_setting`: such a line is read as one statement, in front of any other lines;
* `readStatements_setting`: so a text with such a line in front is the line and what is behind it.

Design notes: a word ends where a line does, since no line end is part of a word.  Nothing is said of
the places that the statements carry.
-/
import LiteralForm.Proofs.Decimal.Text
import LiteralForm.Toml.Document

namespace LiteralForm.Toml

/-! ### Integers -/

theorem hexDigit?_of_isDigit {c : Char} (hc : c.isDigit = true) :
    Text.hexDigit? c = some (c.toNat - '0'.toNat) := by
  obtain ⟨hge, hle⟩ := Char.isDigit_iff_toNat.mp hc
  exact if_pos ⟨Char.le_def.mpr hge, Char.le_def.mpr hle⟩

theorem isGrouped_of_isDigits {p : Char → Bool} {ds : List Char} (hne : ds ≠ [])
    (hd : ∀ c ∈ ds, c.isDigit = true) (hp : ∀ c ∈ ds, p c = true) : isGrouped p ds = true := by
  induction ds with
  | nil => exact absurd rfl hne
  | cons c ds ih =>
    rw [List.forall_mem_cons] at hd hp
    cases ds with
    | nil => exact hp.1
    | cons d ds =>
      have hgroup := ih (List.cons_ne_nil d ds) hd.2 hp.2
      have hunderscore : d ≠ '_' := ne_of_isDigit (hd.2 d List.mem_cons_self) rfl
      rw [isGrouped, hp.1, hgroup]
      · rfl
      · nofun
      · rintro s ⟨⟩
        exact hunderscore rfl

theorem groupedNumber_of_isDigits {ds : List Char} (hd : ∀ c ∈ ds, c.isDigit = true) (n : Nat) :
    ds.foldl (fun n c => if c = '_' then n else n * 10 + (Text.hexDigit? c).getD 0) n
      = Nat.ofDigitChars 10 ds n := by
  induction ds generalizing n with
  | nil => rfl
  | cons c ds ih =>
    rw [List.forall_mem_cons] at hd
    rw [List.foldl_cons, if_neg (ne_of_isDigit hd.1 rfl), hexDigit?_of_isDigit hd.1, ih hd.2,
      Nat.ofDigitChars_cons, Nat.mul_comm]
    rfl

theorem digits?_of_isDigits {ds : List Char} (hd : IsDigits ds) :
    digits? 10 ds = some (Nat.ofDigitChars 10 ds 0) := by
  have hdecimal : ∀ c ∈ ds, (Text.hexDigit? c).any (· < 10) = true := by
    intro c hc
    rw [hexDigit?_of_isDigit (hd.isDigit c hc), Option.any_some, decide_eq_true_eq]
    exact toNat_sub_lt_ten (hd.isDigit c hc)
  rw [digits?, if_pos (isGrouped_of_isDigits hd.ne_nil hd.isDigit hdecimal), groupedNumber,
    groupedNumber_of_isDigits hd.isDigit]

/-- A number is written without leading zeros. -/
theorem decimal?_toDigits (n : Nat) : decimal? (Nat.toDigits 10 n) = some n := by
  have hdigits := digits?_of_isDigits (isDigits_toDigits n)
  rw [Nat.ofDigitChars_ten_toDigits] at hdigits
  rcases Nat.eq_zero_or_pos n with rfl | hpos
  · rfl
  · rw [decimal?, hdigits]
    rintro c s heq
    exact head?_toDigits hpos (congrArg List.head? heq)

theorem integer?_toDigits (n : Nat) : integer? (Nat.toDigits 10 n) = some (n : Int) := by
  have hds := isDigits_toDigits n
  have hsign := Decimal.splitSign_digits hds []
  rw [List.append_nil] at hsign
  -- The marks of the other bases are letters.
  have hmark : ∀ c d s, d.isDigit = false → Nat.toDigits 10 n ≠ c :: d :: s := by
    intro c d s hd heq
    exact hds.notMem hd (heq ▸ List.mem_cons_of_mem c List.mem_cons_self)
  rw [integer?, hsign]
  · simp [decimal?_toDigits]
  · exact fun s => hmark _ _ s rfl
  · exact fun s => hmark _ _ s rfl
  · exact fun s => hmark _ _ s rfl

theorem scalar?_toDigits (n : Nat) : scalar? (Nat.toDigits 10 n) = some (.integer n) := by
  have hds := isDigits_toDigits n
  have hletter : ∀ w : List Char, 'e' ∈ w → Nat.toDigits 10 n ≠ w := by
    rintro w hw rfl
    exact hds.notMem rfl hw
  rw [scalar?, if_neg (hletter _ (by decide)), if_neg (hletter _ (by decide)), integer?_toDigits]

/-! ### Keys and words -/

/-- A key that needs no quotes. -/
structure IsBareKey (key : List Char) : Prop where
  ne_nil : key ≠ []
  isKeyChar : ∀ c ∈ key, isKeyChar c = true

/-- A value that is written as one word. -/
structure IsWord (word : List Char) (v : Toml) : Prop where
  ne_nil : word ≠ []
  isWordChar : ∀ c ∈ word, isWordChar c = true
  value : scalar? word = some v

theorem ne_of_isKeyChar {c d : Char} (hc : isKeyChar c = true) (hd : isKeyChar d = false) :
    c ≠ d := by
  rintro rfl
  rw [hc] at hd
  cases hd

theorem ne_of_isWordChar {c d : Char} (hc : isWordChar c = true) (hd : isWordChar d = false) :
    c ≠ d := by
  rintro rfl
  rw [hc] at hd
  cases hd

variable {key word rest : List Char} {v : Toml}

theorem readKey_bare (hk : IsBareKey key) (hrest : ∀ c ∈ rest.head?, isKeyChar c = false) :
    readKey (key ++ rest) = some (String.ofList key, rest) := by
  have htake := Text.takeWhile_run hk.isKeyChar hrest
  have hdrop := Text.dropWhile_run hk.isKeyChar hrest
  obtain ⟨c, key, rfl⟩ := List.exists_cons_of_ne_nil hk.ne_nil
  have hc := hk.isKeyChar c List.mem_cons_self
  rw [readKey, htake, hdrop]
  · rfl
  · rintro s ⟨⟩
    exact ne_of_isKeyChar hc rfl rfl
  · rintro s ⟨⟩
    exact ne_of_isKeyChar hc rfl rfl

theorem readPath_bare (hk : IsBareKey key) (rest : List Char) :
    readPath (key ++ ' ' :: '=' :: rest)
      = some (String.ofList key, ' ' :: '=' :: rest, [], '=' :: rest) := by
  rw [readPath, readKey_bare hk (by rintro c ⟨⟩; rfl)]
  rfl

theorem splitWord_append (hw : ∀ c ∈ word, isWordChar c = true) (rest : List Char) :
    splitWord (word ++ '\n' :: rest) = (word, '\n' :: rest) := by
  have hend : ∀ c ∈ ('\n' :: rest).head?, isWordChar c = false := by
    rintro c ⟨⟩
    rfl
  simp only [splitWord, Text.takeWhile_run hw hend, Text.dropWhile_run hw hend]
  rfl

theorem readValue_word (hw : IsWord word v) (calls : Nat) (rest : List Char) :
    readValue (calls + 1) (word ++ '\n' :: rest) = some (v, '\n' :: rest) := by
  have hsplit := splitWord_append hw.isWordChar rest
  have hvalue := hw.value
  obtain ⟨c, word, rfl⟩ := List.exists_cons_of_ne_nil hw.ne_nil
  have hc := hw.isWordChar c List.mem_cons_self
  rw [readValue, hsplit]
  · simp [hvalue]
  all_goals
    rintro s ⟨⟩
    exact ne_of_isWordChar hc rfl rfl

/-! ### Lines -/

/-- Blanks in front of a text are passed over. -/
theorem skipBlanks_of_head {c : Char} {s : List Char} (hc : isBlank c = false) :
    skipBlanks (c :: s) = c :: s := by
  rw [skipBlanks, List.dropWhile_cons_of_neg (by simp [hc])]

/-- A line with a bare key and a word is read as the statement that gives the word's value to the
key. -/
theorem readStatement_setting (hk : IsBareKey key) (hw : IsWord word v) (total : Nat)
    (rest : List Char) : ∃ keySpan span,
    readStatement total (key ++ ' ' :: '=' :: ' ' :: (word ++ '\n' :: rest))
      = some (.entry (String.ofList key) keySpan [] v span, '\n' :: rest) := by
  have hskip : skipBlanks (' ' :: (word ++ '\n' :: rest)) = word ++ '\n' :: rest := by
    obtain ⟨c, word, rfl⟩ := List.exists_cons_of_ne_nil hw.ne_nil
    have hc := hw.isWordChar c List.mem_cons_self
    have hblank : isBlank c = false := by
      simp [isBlank, ne_of_isWordChar hc (d := ' ') rfl, ne_of_isWordChar hc (d := '\t') rfl]
    exact skipBlanks_of_head hblank
  have hpath := readPath_bare hk (' ' :: (word ++ '\n' :: rest))
  obtain ⟨c, key, rfl⟩ := List.exists_cons_of_ne_nil hk.ne_nil
  have hc := hk.isKeyChar c List.mem_cons_self
  rw [List.cons_append] at hpath ⊢
  rw [readStatement]
  · simp only [readEntry, hpath, hskip, readValue_word hw, Option.map_some]
    exact ⟨_, _, rfl⟩
  all_goals
    intro s heq
    exact ne_of_isKeyChar hc rfl (List.cons.inj heq).1

/-- A line ends behind its statement, and at the end of a text there is no further line. -/
theorem readStatements_of_readStatement {c : Char} {s rest : List Char} {st : Statement}
    {total : Nat} (hc : isKeyChar c = true)
    (h : readStatement total (c :: s) = some (st, '\n' :: rest)) (lines : Nat) :
    readStatements total (lines + 1) (c :: s)
      = (if rest = [] then some [] else readStatements total lines rest).map (st :: ·) := by
  have hblank : isBlank c = false := by
    simp [isBlank, ne_of_isKeyChar hc (d := ' ') rfl, ne_of_isKeyChar hc (d := '\t') rfl]
  rw [readStatements, skipBlanks_of_head hblank]
  dsimp only
  split
  case h_1 hnone =>
    split at hnone
    case h_5 =>
      rw [h] at hnone
      cases hnone
    all_goals cases hnone
  case h_2 hsome =>
    -- A key begins no line end and no comment, so the line is read as a statement.
    split at hsome
    case h_1 heq => cases heq
    case h_5 =>
      rw [h] at hsome
      cases hsome
      cases rest with
      | nil => rfl
      | cons d rest => rfl
    all_goals
      next heq => exact absurd (List.cons.inj heq).1 (ne_of_isKeyChar hc rfl)

/-- A text with such a line in front is the line and what is behind it. -/
theorem readStatements_setting (hk : IsBareKey key) (hw : IsWord word v) (total lines : Nat)
    (rest : List Char) : ∃ keySpan span,
    readStatements total (lines + 1) (key ++ ' ' :: '=' :: ' ' :: (word ++ '\n' :: rest))
      = (if rest = [] then some [] else readStatements total lines rest).map
          (.entry (String.ofList key) keySpan [] v span :: ·) := by
  obtain ⟨keySpan, span, hread⟩ := readStatement_setting hk hw total rest
  obtain ⟨c, key, rfl⟩ := List.exists_cons_of_ne_nil hk.ne_nil
  exact ⟨keySpan, span,
    readStatements_of_readStatement (hk.isKeyChar c List.mem_cons_self) hread lines⟩

end LiteralForm.Toml
