/-
Integer constants of C#.

`readConstant` reads a text as a constant of integer literals, unary minus, casts to the keywords of
the integral types, and parentheses.

* A literal is of the first type that holds its number, out of the types that its suffix admits;
* minus makes a `uint` a `long`, is refused for a `ulong`, and gives the least `int` and the least
  `long` by a rule of their own, since their digits alone are too large for the type;
* a cast needs a number in the range of its type;
* `readConstant_render`: the code of an integral value is a constant of its type and its value.

Design notes: the sign of a number is a token of its own.  A literal with a negative number is thus
two tokens, and its type follows from the rule for minus and not from the digits.
-/
import LiteralForm.Proofs.CSharp.Naming
import LiteralForm.Proofs.Integer.Literal
import LiteralForm.Rendering
import Mathlib.Data.List.Pairwise
import Mathlib.Data.List.SplitBy

namespace LiteralForm.CSharp

/-! ### Literals -/

/-- The suffix of an integer literal. -/
inductive Suffix
  | plain
  | unsigned
  | long
  | unsignedLong
  deriving DecidableEq, Repr

namespace Suffix

/-- The spellings of the suffixes, in capital letters. -/
def spellings : List (String × Suffix) :=
  [("", plain), ("U", unsigned), ("L", long), ("UL", unsignedLong), ("LU", unsignedLong)]

/-- The suffix with the given text. -/
def ofText? (text : List Char) : Option Suffix :=
  spellings.lookup (String.ofList (text.map Char.toUpper))

/-- The usual spelling of a suffix. -/
def text : Suffix → List Char
  | plain => []
  | unsigned => ['U']
  | long => ['L']
  | unsignedLong => ['U', 'L']

theorem ofText?_text (s : Suffix) : ofText? s.text = some s := by
  cases s <;> decide

theorem isAlpha_of_mem_text {s : Suffix} {c : Char} (h : c ∈ s.text) : c.isAlpha = true := by
  have hall : ∀ s : Suffix, s.text.all Char.isAlpha = true := by
    intro s
    cases s <;> decide
  exact List.all_eq_true.mp (hall s) c h

theorem endsDigits_text (s : Suffix) : EndsDigits s.text := by
  intro c hc
  cases s <;> cases hc <;> rfl

/-- The first type that a literal with the suffix can have. -/
def firstKind : Suffix → IntKind
  | plain => .int32
  | unsigned => .uint32
  | long => .int64
  | unsignedLong => .uint64

/-- The other types that a literal with the suffix can have, in the order in which they are
tried. -/
def furtherKinds : Suffix → List IntKind
  | plain => [.uint32, .int64, .uint64]
  | unsigned | long => [.uint64]
  | unsignedLong => []

end Suffix

/-- The constant of a literal: of the first type that holds the number. -/
def literal? (n : Nat) (s : Suffix) : Option Integral :=
  (s.firstKind :: s.furtherKinds).findSome? fun k => Integral.ofInt? k n

/-- The constant with a minus sign in front.  Types narrower than `int` become `int`. -/
def negated? (i : Integral) : Option Integral :=
  match i.kind with
  | .uint64 => none
  | .uint32 | .int64 => Integral.ofInt? .int64 (-i.value)
  | _ => Integral.ofInt? .int32 (-i.value)

/-- The constant of a literal directly after a minus sign. -/
def negatedLiteral? (n : Nat) (s : Suffix) : Option Integral :=
  if n = 2147483648 ∧ s = .plain then Integral.ofInt? .int32 (-2147483648)
  else if n = 9223372036854775808 ∧ (s = .plain ∨ s = .long) then
    Integral.ofInt? .int64 (-9223372036854775808)
  else (literal? n s).bind negated?

/-! ### Tokens -/

/-- The tokens of integer constants. -/
inductive ConstantToken
  | minus
  | opening
  | closing
  | keyword (kind : IntKind)
  | number (n : Nat) (suffix : Suffix)
  deriving DecidableEq, Repr

/-- The keywords of the integral types. -/
def integralKeywords : List (String × IntKind) :=
  [("sbyte", .sbyte), ("byte", .byte), ("short", .int16), ("ushort", .uint16), ("int", .int32),
    ("uint", .uint32), ("long", .int64), ("ulong", .uint64)]

/-- A word of digits and a suffix. -/
def number? (word : List Char) : Option ConstantToken :=
  let digits := word.takeWhile Char.isDigit
  if digits = [] then none
  else (Suffix.ofText? (word.dropWhile Char.isDigit)).map (.number (Nat.ofDigitChars 10 digits 0))

/-- The token of a word. -/
def token? (word : List Char) : Option ConstantToken :=
  if word = ['-'] then some .minus
  else if word = ['('] then some .opening
  else if word = [')'] then some .closing
  else ((integralKeywords.lookup (String.ofList word)).map .keyword).or (number? word)

/-- The words of a text: the longest runs of letters and digits, and all other characters one by
one. -/
def words (text : List Char) : List (List Char) :=
  text.splitBy fun a b => isWordChar a && isWordChar b

/-- The tokens of a text. -/
def tokens? (text : List Char) : Option (List ConstantToken) := (words text).mapM token?

/-! ### Expressions -/

/-- Takes a closing parenthesis off the tokens after an operand. -/
def closed? (i : Integral) : List ConstantToken → Option (Integral × List ConstantToken)
  | .closing :: rest => some (i, rest)
  | _ => none

/-- Reads an operand of unary operators; what is left are the tokens after it. -/
def readUnary : List ConstantToken → Option (Integral × List ConstantToken)
  | .number n s :: rest => (literal? n s).map fun i => (i, rest)
  | .minus :: .number n s :: rest => (negatedLiteral? n s).map fun i => (i, rest)
  -- Two minus signs without a blank between them are another operator.
  | .minus :: .minus :: _ => none
  | .minus :: rest => (readUnary rest).bind fun (i, after) => (negated? i).map fun j => (j, after)
  | .opening :: .keyword k :: .closing :: rest =>
    (readUnary rest).bind fun (i, after) => (Integral.ofInt? k i.value).map fun j => (j, after)
  | .opening :: rest => (readUnary rest).bind fun (i, after) => closed? i after
  | _ => none

/-- Reads a whole text as a constant. -/
def readConstant (text : List Char) : Option Integral :=
  (tokens? text).bind fun ts => (readUnary ts).bind fun (i, after) =>
    if after = [] then some i else none

/-! ### Reading tokens -/

/-- A text is cut where two characters do not belong to one word. -/
theorem tokens?_append {text rest : List Char} {ts us : List ConstantToken}
    (hcut : ∀ x ∈ text.getLast?, ∀ y ∈ rest.head?, (isWordChar x && isWordChar y) = false)
    (ht : tokens? text = some ts) (hr : tokens? rest = some us) :
    tokens? (text ++ rest) = some (ts ++ us) := by
  unfold tokens? words at ht hr ⊢
  rw [List.splitBy_append hcut, List.mapM_append, ht, hr]
  rfl

theorem tokens?_symbol {c : Char} {t : ConstantToken} {rest : List Char} {us : List ConstantToken}
    (hc : isWordChar c = false) (ht : token? [c] = some t) (hr : tokens? rest = some us) :
    tokens? (c :: rest) = some (t :: us) := by
  have hone : tokens? [c] = some [t] := by
    show [[c]].mapM token? = some [t]
    rw [List.mapM_cons, ht]
    rfl
  show tokens? ([c] ++ rest) = some ([t] ++ us)
  refine tokens?_append ?_ hone hr
  intro x hx y _
  obtain rfl : c = x := by simpa using hx
  rw [hc, Bool.false_and]

/-- A word ends in front of a character that stands alone. -/
theorem tokens?_word {word rest : List Char} {t : ConstantToken} {us : List ConstantToken}
    (hne : word ≠ []) (hword : ∀ c ∈ word, isWordChar c = true) (ht : token? word = some t)
    (hend : ∀ c ∈ rest.head?, isWordChar c = false) (hr : tokens? rest = some us) :
    tokens? (word ++ rest) = some (t :: us) := by
  have hchain : word.IsChain fun a b => (isWordChar a && isWordChar b) = true := by
    refine (List.pairwise_of_forall_mem_list ?_).isChain
    intro a ha b hb
    rw [hword a ha, hword b hb]
    rfl
  have hone : tokens? word = some [t] := by
    rw [tokens?, words, List.splitBy_of_isChain hne hchain, List.mapM_cons, ht]
    rfl
  show tokens? (word ++ rest) = some ([t] ++ us)
  refine tokens?_append ?_ hone hr
  intro x _ y hy
  rw [hend y hy, Bool.and_false]

/-- The sign of an integer as a token. -/
def signTokens (v : Int) : List ConstantToken := if v < 0 then [.minus] else []

/-- No keyword begins with a digit. -/
theorem lookup_integralKeywords {word : List Char} {c : Char} (hc : c ∈ word.head?)
    (hdigit : c.isDigit = true) : integralKeywords.lookup (String.ofList word) = none := by
  have hheads : ∀ p ∈ integralKeywords, p.1.toList.head?.all fun d => !d.isDigit := by decide
  rw [List.lookup_eq_none_iff]
  intro p hp
  rw [bne_iff_ne]
  intro heq
  have hhead := hheads p hp
  rw [← heq, String.toList_ofList, hc, Option.all_some, hdigit] at hhead
  exact absurd hhead (by decide)

theorem token?_digits (n : Nat) (s : Suffix) :
    token? (Nat.toDigits 10 n ++ s.text) = some (.number n s) := by
  have hdigits := isDigits_toDigits n
  obtain ⟨c, ds, hds⟩ := List.exists_cons_of_ne_nil hdigits.ne_nil
  have hc : c.isDigit = true := hdigits.isDigit c (hds ▸ List.mem_cons_self)
  have hhead : (Nat.toDigits 10 n ++ s.text).head? = some c := by
    rw [hds]
    rfl
  have hsymbol : ∀ d : Char, d.isDigit = false → Nat.toDigits 10 n ++ s.text ≠ [d] := by
    intro d hd heq
    rw [heq] at hhead
    exact ne_of_isDigit hc hd (Option.some.inj hhead).symm
  have hnumber : number? (Nat.toDigits 10 n ++ s.text) = some (.number n s) := by
    unfold number?
    simp only [takeWhile_digits hdigits s.endsDigits_text,
      dropWhile_digits hdigits s.endsDigits_text,
      if_neg hdigits.ne_nil, s.ofText?_text, Option.map_some, Nat.ofDigitChars_ten_toDigits]
  rw [token?, if_neg (hsymbol '-' rfl), if_neg (hsymbol '(' rfl), if_neg (hsymbol ')' rfl),
    lookup_integralKeywords hhead hc]
  exact hnumber

/-- An integer with a suffix behind it is read as its sign and a literal. -/
theorem tokens?_toString (v : Int) (s : Suffix) {rest : List Char} {us : List ConstantToken}
    (hend : ∀ c ∈ rest.head?, isWordChar c = false) (hr : tokens? rest = some us) :
    tokens? ((toString v).toList ++ (s.text ++ rest))
      = some (signTokens v ++ .number v.natAbs s :: us) := by
  have hdigits := isDigits_toDigits v.natAbs
  have hword : tokens? (Nat.toDigits 10 v.natAbs ++ s.text ++ rest)
      = some (.number v.natAbs s :: us) := by
    refine tokens?_word ?_ ?_ (token?_digits v.natAbs s) hend hr
    · simp [hdigits.ne_nil]
    · intro c hc
      have halphanum : c.isAlphanum = true := by
        rcases List.mem_append.mp hc with hc | hc
        · rw [Char.isAlphanum, hdigits.isDigit c hc, Bool.or_true]
        · rw [Char.isAlphanum, Suffix.isAlpha_of_mem_text hc, Bool.true_or]
      rw [isWordChar, halphanum, Bool.true_or, Bool.true_or]
  rw [Integral.toList_toString, List.append_assoc, ← List.append_assoc _ s.text]
  unfold signTokens Numeral.signText
  by_cases h : v < 0
  · rw [if_pos h, if_pos (decide_eq_true h)]
    exact tokens?_symbol rfl rfl hword
  · rw [if_neg h, if_neg (by simpa using h)]
    exact hword

/-! ### Reading expressions -/

theorem ofInt?_eq_some {k : IntKind} {v : Int} (h : k.InRange v) :
    Integral.ofInt? k v = some ⟨k, v, h⟩ := dif_pos h

theorem literal?_eq_some {n : Nat} {s : Suffix} (h : s.firstKind.InRange n) :
    literal? n s = some ⟨s.firstKind, n, h⟩ := by
  rw [literal?, List.findSome?_cons, ofInt?_eq_some h]

/-- A negative number that the first type of its suffix holds is of this type, also if it is the
least one of the type. -/
theorem negatedLiteral?_eq_some {v : Int} (hneg : v < 0) {s : Suffix} (h : s.firstKind.InRange v) :
    negatedLiteral? v.natAbs s = some ⟨s.firstKind, v, h⟩ := by
  have habs : -(v.natAbs : Int) = v := by omega
  cases s with
  | unsigned => exact absurd h.1 (Int.not_le.mpr hneg)
  | unsignedLong => exact absurd h.1 (Int.not_le.mpr hneg)
  | plain =>
    have hbounds : -2147483648 ≤ v ∧ v ≤ 2147483647 := h
    by_cases hleast : v.natAbs = 2147483648
    · obtain rfl : v = -2147483648 := by omega
      rfl
    · have hrange : IntKind.int32.InRange v.natAbs := by
        show -2147483648 ≤ (v.natAbs : Int) ∧ (v.natAbs : Int) ≤ 2147483647
        omega
      rw [negatedLiteral?, if_neg (by omega), if_neg (by omega),
        literal?_eq_some (s := .plain) hrange]
      show Integral.ofInt? .int32 (-(v.natAbs : Int)) = _
      rw [habs]
      exact ofInt?_eq_some h
  | long =>
    have hbounds : -9223372036854775808 ≤ v ∧ v ≤ 9223372036854775807 := h
    by_cases hleast : v.natAbs = 9223372036854775808
    · obtain rfl : v = -9223372036854775808 := by omega
      rfl
    · have hrange : IntKind.int64.InRange v.natAbs := by
        show -9223372036854775808 ≤ (v.natAbs : Int) ∧ (v.natAbs : Int) ≤ 9223372036854775807
        omega
      rw [negatedLiteral?, if_neg (by simp), if_neg (by omega),
        literal?_eq_some (s := .long) hrange]
      show Integral.ofInt? .int64 (-(v.natAbs : Int)) = _
      rw [habs]
      exact ofInt?_eq_some h

/-- A number that the first type of its suffix holds is read as a constant of this type. -/
theorem readUnary_signTokens {v : Int} {s : Suffix} (h : s.firstKind.InRange v)
    (after : List ConstantToken) :
    readUnary (signTokens v ++ .number v.natAbs s :: after)
      = some (⟨s.firstKind, v, h⟩, after) := by
  by_cases hneg : v < 0
  · rw [signTokens, if_pos hneg, List.singleton_append, readUnary,
      negatedLiteral?_eq_some hneg h, Option.map_some]
  · obtain ⟨n, rfl⟩ := Int.eq_ofNat_of_zero_le (Int.not_lt.mp hneg)
    rw [signTokens, if_neg hneg, List.nil_append, readUnary, Int.natAbs_natCast,
      literal?_eq_some h, Option.map_some]

/-- The digits of a number and a suffix whose first type holds it are a constant of this type. -/
theorem readConstant_suffix {v : Int} {s : Suffix} (h : s.firstKind.InRange v) :
    readConstant ((toString v).toList ++ s.text) = some ⟨s.firstKind, v, h⟩ := by
  have hnil : tokens? [] = some [] := rfl
  have htokens := tokens?_toString v s (by simp) hnil
  rw [List.append_nil] at htokens
  rw [readConstant, htokens, Option.bind_some, readUnary_signTokens h, Option.bind_some]
  rfl

theorem isWordChar_closing {rest : List Char} :
    ∀ c ∈ (')' :: rest).head?, isWordChar c = false := by
  intro c hc
  obtain rfl : ')' = c := Option.some.inj hc
  rfl

theorem token?_intKeyword (k : IntKind) : token? (intKeyword k).toList = some (.keyword k) := by
  cases k <;> decide

/-- A cast of a number in the range of a type is a constant of the type. -/
theorem readConstant_cast {k : IntKind} {v : Int} (h : k.InRange v)
    (hint : IntKind.int32.InRange v) :
    readConstant ("((" ++ intKeyword k ++ ")" ++ toString v ++ ")").toList = some ⟨k, v, h⟩ := by
  have hclosing : tokens? [')'] = some [.closing] := rfl
  have hnumber : tokens? ((toString v).toList ++ [')'])
      = some (signTokens v ++ [.number v.natAbs .plain, .closing]) :=
    tokens?_toString v .plain isWordChar_closing hclosing
  have hoperand : tokens? (')' :: ((toString v).toList ++ [')']))
      = some (.closing :: (signTokens v ++ [.number v.natAbs .plain, .closing])) :=
    tokens?_symbol rfl rfl hnumber
  obtain ⟨hne, hword⟩ := isIdentifier_keyword (.integral k)
  have hkeyword := tokens?_word hne hword (token?_intKeyword k) isWordChar_closing hoperand
  have hopening : tokens? ('(' :: ((intKeyword k).toList ++ ')' :: ((toString v).toList ++ [')'])))
      = some (.opening :: .keyword k :: .closing ::
        (signTokens v ++ [.number v.natAbs .plain, .closing])) :=
    tokens?_symbol rfl rfl hkeyword
  have htext : ("((" ++ intKeyword k ++ ")" ++ toString v ++ ")").toList
      = '(' :: '(' :: ((intKeyword k).toList ++ ')' :: ((toString v).toList ++ [')'])) := by
    simp
  rw [htext, readConstant, tokens?_symbol (t := .opening) rfl rfl hopening, Option.bind_some,
    readUnary]
  · rw [readUnary, readUnary_signTokens (s := .plain) hint]
    simp [closed?, ofInt?_eq_some h]
  · -- The outer parenthesis is no cast, since another one follows it.
    intro l rest heq
    cases heq

/-- What fits a type narrower than `int` fits `int`. -/
theorem inRange_int32_of_width_lt {k : IntKind} {v : Int} (hk : k.width < 32) (h : k.InRange v) :
    IntKind.int32.InRange v := by
  have hwithin : IntKind.int32.minValue ≤ k.minValue ∧ k.maxValue ≤ IntKind.int32.maxValue := by
    revert hk
    cases k <;> decide
  exact ⟨hwithin.1.trans h.1, h.2.trans hwithin.2⟩

/-- The code of an integral value is a constant of exactly its type and its value. -/
theorem readConstant_render (o : Options) (declared : Option TypeRef) (i : Integral) :
    ∃ code, (Renderer.csharp o).render declared (.integral i) = .quiet code ∧
      readConstant code.toList = some i := by
  refine ⟨i.literal (Renderer.csharp o).namer, rfl, ?_⟩
  have hsuffix : ∀ (s : Suffix) (v : Int) (h : s.firstKind.InRange v),
      readConstant (toString v ++ String.ofList s.text).toList = some ⟨s.firstKind, v, h⟩ := by
    intro s v h
    rw [String.toList_append, String.toList_ofList]
    exact readConstant_suffix h
  obtain ⟨k, v, h⟩ := i
  cases k with
  | byte => exact readConstant_cast h (inRange_int32_of_width_lt (by decide) h)
  | sbyte => exact readConstant_cast h (inRange_int32_of_width_lt (by decide) h)
  | int16 => exact readConstant_cast h (inRange_int32_of_width_lt (by decide) h)
  | uint16 => exact readConstant_cast h (inRange_int32_of_width_lt (by decide) h)
  | int32 =>
    have hplain := hsuffix .plain v h
    rw [show String.ofList Suffix.plain.text = "" from rfl, String.append_empty] at hplain
    exact hplain
  | uint32 => exact hsuffix .unsigned v h
  | int64 => exact hsuffix .long v h
  | uint64 => exact hsuffix .unsignedLong v h

-- The rule for the least `int` needs the digits directly behind the sign.
example : readConstant "-2147483648".toList = Integral.ofInt? .int32 (-2147483648) ∧
    readConstant "-(2147483648)".toList = Integral.ofInt? .int64 (-2147483648) := by
  decide +kernel

end LiteralForm.CSharp
