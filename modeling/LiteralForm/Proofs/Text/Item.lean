/-
The items of quoted text.

Between quotes a text is a sequence of items, each a plain character, a simple escape or an escape
by number with the longest run of digits that it may have.

* `Item text c rest`: the text in front of `rest` is one item and stands for `c`;
* `item_escapeChar`: every character is written as one item that stands for it, whatever follows.

Design notes: how far an item goes depends on the character behind it, so items are stated in front
of what is left.  They are given by tables of their own, which neither the writer nor the decoder of
quoted text uses, so that both can be compared with them.
-/
import LiteralForm.Text.Escape
import Mathlib.Data.List.Forall2
import Mathlib.Data.Nat.Digits.Defs

namespace LiteralForm.Text

/-! ### Tables -/

/-- The characters behind the backslash of a simple escape, and what they stand for. -/
def simpleEscapes : List (Char × Char) :=
  [('\\', '\\'), ('\x22', '\x22'), ('\x27', '\x27'), ('0', '\x00'), ('a', '\x07'), ('b', '\x08'),
    ('f', '\x0c'), ('n', '\n'), ('r', '\r'), ('t', '\t'), ('v', '\x0b')]

/-- The letters of escapes by number, each with the least and the greatest number of digits. -/
def numberEscapes : List (Char × Nat × Nat) := [('x', 1, 4), ('u', 4, 4), ('U', 8, 8)]

/-- The hexadecimal digits in lower case, each at the place of its value. -/
def lowerDigits : List Char :=
  ['0', '1', '2', '3', '4', '5', '6', '7', '8', '9', 'a', 'b', 'c', 'd', 'e', 'f']

/-- The hexadecimal digits in upper case, each at the place of its value. -/
def upperDigits : List Char :=
  ['0', '1', '2', '3', '4', '5', '6', '7', '8', '9', 'A', 'B', 'C', 'D', 'E', 'F']

/-- The character is the hexadecimal digit of the number, in lower or in upper case. -/
def IsHexDigit (c : Char) (n : Nat) : Prop := lowerDigits[n]? = some c ∨ upperDigits[n]? = some c

/-- The digits are those of the number, the most significant one first. -/
def IsHexNumber (digits : List Char) (n : Nat) : Prop :=
  ∃ ns, List.Forall₂ IsHexDigit digits ns ∧ n = Nat.ofDigits 16 ns.reverse

/-- A reader that knows the digits of both tables knows every digit. -/
theorem IsHexDigit.eq_some {value? : Char → Option Nat}
    (hlower : ∀ p ∈ lowerDigits.zipIdx, value? p.1 = some p.2)
    (hupper : ∀ p ∈ upperDigits.zipIdx, value? p.1 = some p.2) {c : Char} {n : Nat}
    (h : IsHexDigit c n) : value? c = some n := by
  rcases h with h | h
  · exact hlower (c, n) (List.mem_zipIdx_iff_getElem?.mpr h)
  · exact hupper (c, n) (List.mem_zipIdx_iff_getElem?.mpr h)

theorem exists_isHexNumber {digits : List Char} (h : ∀ c ∈ digits, ∃ n, IsHexDigit c n) :
    ∃ n, IsHexNumber digits n := by
  obtain ⟨ns, hns⟩ : ∃ ns, List.Forall₂ IsHexDigit digits ns := by
    induction digits with
    | nil => exact ⟨[], .nil⟩
    | cons c digits ih =>
      rw [List.forall_mem_cons] at h
      obtain ⟨n, hn⟩ := h.1
      obtain ⟨ns, hns⟩ := ih h.2
      exact ⟨n :: ns, .cons hn hns⟩
  exact ⟨Nat.ofDigits 16 ns.reverse, ns, hns, rfl⟩

/-! ### Runs of digits -/

/-- The digits are as many as stand in front of `rest`, but `most` of them in any case. -/
structure LongestRun (most : Nat) (digits rest : List Char) : Prop where
  hex : ∀ c ∈ digits, ∃ n, IsHexDigit c n
  le : digits.length ≤ most
  longest : digits.length = most ∨ ∀ c ∈ rest.head?, ∀ n, ¬IsHexDigit c n

/-- Every text begins with a longest run, which may be empty. -/
theorem exists_longestRun (most : Nat) (text : List Char) : ∃ digits rest,
    text = digits ++ rest ∧ LongestRun most digits rest := by
  induction most generalizing text with
  | zero => exact ⟨[], text, rfl, ⟨nofun, Nat.le_refl 0, .inl rfl⟩⟩
  | succ most ih =>
    cases text with
    | nil => exact ⟨[], [], rfl, ⟨nofun, Nat.zero_le _, .inr nofun⟩⟩
    | cons c text =>
      by_cases hc : ∃ n, IsHexDigit c n
      · obtain ⟨digits, rest, rfl, run⟩ := ih text
        refine ⟨c :: digits, rest, rfl, ?_, Nat.succ_le_succ run.le, ?_⟩
        · exact List.forall_mem_cons.mpr ⟨hc, run.hex⟩
        · exact run.longest.imp_left (congrArg Nat.succ)
      · refine ⟨[], c :: text, rfl, nofun, Nat.zero_le _, .inr ?_⟩
        rintro d ⟨⟩ n hn
        exact hc ⟨n, hn⟩

/-- A reader that knows the digits takes the longest run. -/
theorem LongestRun.takeWhile_eq {isDigit : Char → Bool}
    (hdigit : ∀ {c}, isDigit c = true ↔ ∃ n, IsHexDigit c n) {most : Nat} {digits rest : List Char}
    (h : LongestRun most digits rest) :
    ((digits ++ rest).take most).takeWhile isDigit = digits := by
  have hhex : ∀ c ∈ digits, isDigit c = true := fun c hc => hdigit.mpr (h.hex c hc)
  rw [List.take_append, List.take_of_length_le h.le, List.takeWhile_append_of_pos hhex]
  rcases h.longest with hlen | hhead
  · rw [hlen, Nat.sub_self, List.take_zero, List.takeWhile_nil, List.append_nil]
  · -- What follows is no digit, so the run ends there.
    cases rest with
    | nil => simp
    | cons c rest =>
      have hc : ¬isDigit c = true := fun hc => (hdigit.mp hc).elim (hhead c rfl)
      cases most - digits.length with
      | zero => simp
      | succ k => simp [hc]

theorem LongestRun.of_append {most : Nat} {digits rest left : List Char}
    (h : LongestRun most digits (rest ++ left)) : LongestRun most digits rest where
  hex := h.hex
  le := h.le
  longest := by
    cases rest with
    | nil => exact .inr nofun
    | cons c rest => exact h.longest

/-! ### Items -/

/-- The text in front of `rest` is one item that stands for the character. -/
inductive Item : List Char → Char → List Char → Prop
  | plain {c : Char} {rest : List Char} (h : c ≠ '\\') : Item [c] c rest
  | simple {kind c : Char} {rest : List Char} (h : (kind, c) ∈ simpleEscapes) :
      Item ['\\', kind] c rest
  | number {kind c : Char} {least most : Nat} {digits rest : List Char}
      (h : (kind, least, most) ∈ numberEscapes) (run : LongestRun most digits rest)
      (enough : least ≤ digits.length) (value : IsHexNumber digits c.toNat) :
      Item ('\\' :: kind :: digits) c rest

theorem Item.length_pos {text rest : List Char} {c : Char} (h : Item text c rest) :
    0 < text.length := by
  cases h <;> exact Nat.succ_pos _

theorem Item.of_append {text rest left : List Char} {c : Char} (h : Item text c (rest ++ left)) :
    Item text c rest := by
  cases h with
  | plain hc => exact .plain hc
  | simple hkind => exact .simple hkind
  | number hkind run enough value => exact .number hkind run.of_append enough value

/-! ### Written characters -/

theorem isHexDigit_digitChar {n : Nat} (h : n < 16) : IsHexDigit n.digitChar n := by
  have hall : ∀ k : Fin 16, lowerDigits[k.val]? = some (Nat.digitChar k) := by decide
  exact .inl (hall ⟨n, h⟩)

theorem lt_of_mem_places {m n : Nat} (h : m ∈ [n / 4096 % 16, n / 256 % 16, n / 16 % 16, n % 16]) :
    m < 16 := by
  simp only [List.mem_cons, List.not_mem_nil, or_false] at h
  omega

theorem isHexNumber_hex4 {n : Nat} (h : n < 65536) : IsHexNumber (hex4 n) n := by
  refine ⟨[n / 4096 % 16, n / 256 % 16, n / 16 % 16, n % 16], ?_, ?_⟩
  · rw [hex4, List.forall₂_map_left_iff, List.forall₂_same]
    exact fun m hm => isHexDigit_digitChar (lt_of_mem_places hm)
  · simp only [List.reverse_cons, List.reverse_nil, List.nil_append, List.cons_append,
      Nat.ofDigits_cons, Nat.ofDigits_nil]
    omega

/-- Four digits are a longest run where no more than four are taken, whatever follows. -/
theorem longestRun_hex4 (n : Nat) (rest : List Char) : LongestRun 4 (hex4 n) rest where
  hex c hc := by
    obtain ⟨m, hm, rfl⟩ := List.mem_map.mp hc
    exact ⟨m, isHexDigit_digitChar (lt_of_mem_places hm)⟩
  le := Nat.le_refl 4
  longest := .inl rfl

/-- An escape of four digits is one item, whatever follows. -/
theorem item_hex4 {kind c : Char} (hkind : kind = 'x' ∨ kind = 'u') (hc : c.toNat < 65536)
    (rest : List Char) : Item ('\\' :: kind :: hex4 c.toNat) c rest := by
  obtain ⟨least, hmem, hleast⟩ : ∃ least, (kind, least, 4) ∈ numberEscapes ∧ least ≤ 4 := by
    rcases hkind with rfl | rfl
    · exact ⟨1, by simp [numberEscapes], by omega⟩
    · exact ⟨4, by simp [numberEscapes], by omega⟩
  exact .number hmem (longestRun_hex4 c.toNat rest) hleast (isHexNumber_hex4 hc)

/-- Every character is written as one item that stands for it, whatever follows. -/
theorem item_escapeChar (q : Quote) (c : Char) (rest : List Char) :
    Item (escapeChar q c) c rest := by
  unfold escapeChar
  split
  · next h => exact .simple (by simp [simpleEscapes, h])
  split
  · next h => exact .simple (by simp [simpleEscapes, h])
  split
  · next h => exact .simple (by simp [simpleEscapes, h])
  split
  · next h =>
    have hc : c.toNat < 65536 := by
      simp only [isControl, Bool.or_eq_true, Bool.and_eq_true, decide_eq_true_eq] at h
      omega
    exact item_hex4 (.inl rfl) hc rest
  split
  · next h =>
    have hc : c.toNat < 65536 := by
      simp only [isSeparator, Bool.or_eq_true, beq_iff_eq] at h
      omega
    exact item_hex4 (.inr rfl) hc rest
  split
  · next h => exact .simple (by simp [simpleEscapes, h])
  split
  · next h => exact .simple (by simp [simpleEscapes, h])
  split
  · next h => exact .simple (by simp [simpleEscapes, h.1])
  · next hslash _ _ => exact .plain hslash

end LiteralForm.Text
