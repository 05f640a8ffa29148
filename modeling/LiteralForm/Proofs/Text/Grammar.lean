/-
The grammar of quoted bodies.

A body is split from left to right into items (`Item`).  Where no item fits there is a `Fault`.

* `exists_splits`: every body is split to its end or up to a fault;
* `unescapeFrom_item`, `unescapeFrom_fault`: the decoder takes an item as its character, and
  reports a fault at the offset of its backslash;
* `unescape_grammar`: a body is accepted exactly if it splits to its end, and refused with the
  fault at the place where the split ends.

Design notes: as an item depends on the character behind it, splits are stated in front of what is
left of the body.  Faults are given by the tables of the items, and the decoder's own functions are
known to agree with them.
-/
import LiteralForm.Proofs.Text.Unescape

namespace LiteralForm.Text

/-! ### Faults and splits -/

/-- What is left of a body, from the offset on, begins with no item for the given reason. -/
inductive Fault (offset : Nat) : List Char → UnescapeError → Prop
  | dangling : Fault offset ['\\'] .dangling
  | unknown {kind : Char} {rest : List Char} (simple : ∀ c, (kind, c) ∉ simpleEscapes)
      (number : ∀ bounds, (kind, bounds) ∉ numberEscapes) :
      Fault offset ('\\' :: kind :: rest) (.unknownEscape kind)
  | missing {kind : Char} {least most : Nat} {digits rest : List Char}
      (h : (kind, least, most) ∈ numberEscapes) (run : LongestRun most digits rest)
      (few : digits.length < least) :
      Fault offset ('\\' :: kind :: (digits ++ rest)) (.missingHexDigits kind offset)
  | invalid {kind : Char} {least most n : Nat} {digits rest : List Char}
      (h : (kind, least, most) ∈ numberEscapes) (run : LongestRun most digits rest)
      (enough : least ≤ digits.length) (value : IsHexNumber digits n)
      (noScalar : (0xd800 ≤ n ∧ n ≤ 0xdfff) ∨ 0x10ffff < n) :
      Fault offset ('\\' :: kind :: (digits ++ rest)) (.invalidCodePoint offset)

/-- The text in front of `left` is a sequence of items that stand for the characters. -/
inductive Splits (left : List Char) : List Char → List Char → Prop
  | nil : Splits left [] []
  | cons {text rest out : List Char} {c : Char} (item : Item text c (rest ++ left))
      (tail : Splits left rest out) : Splits left (text ++ rest) (c :: out)

/-! ### Escapes by number -/

section Number

variable {kind : Char} {least most : Nat} {digits rest : List Char}

theorem charOfNumber?_eq_none {n : Nat} (h : (0xd800 ≤ n ∧ n ≤ 0xdfff) ∨ 0x10ffff < n) :
    charOfNumber? n = none := by
  refine if_neg fun hvalid => ?_
  rcases hvalid with hlow | hhigh <;> omega

theorem readEscape_missing (h : (kind, least, most) ∈ numberEscapes)
    (run : LongestRun most digits rest) (few : digits.length < least) (offset : Nat) :
    readEscape offset kind (digits ++ rest) = .error (.missingHexDigits kind offset) := by
  simp only [readEscape, simpleEscape?_of_number h, mem_numberEscapes_iff.mp h,
    run.takeWhile_eq isSome_hexDigit?_iff, if_pos few]

theorem readEscape_invalid (h : (kind, least, most) ∈ numberEscapes)
    (run : LongestRun most digits rest) (enough : least ≤ digits.length) {n : Nat}
    (value : IsHexNumber digits n) (noScalar : (0xd800 ≤ n ∧ n ≤ 0xdfff) ∨ 0x10ffff < n)
    (offset : Nat) :
    readEscape offset kind (digits ++ rest) = .error (.invalidCodePoint offset) := by
  simp only [readEscape, simpleEscape?_of_number h, mem_numberEscapes_iff.mp h,
    run.takeWhile_eq isSome_hexDigit?_iff, if_neg (Nat.not_lt.mpr enough), value.eq,
    charOfNumber?_eq_none noScalar]

end Number

/-! ### One item, or a fault -/

theorem unescapeFrom_fault {offset : Nat} {left : List Char} {e : UnescapeError}
    (h : Fault offset left e) : unescapeFrom offset left = .error e := by
  cases h with
  | dangling => exact unescapeFrom_lone offset
  | @unknown kind rest simple number =>
    have hsimple : simpleEscape? kind = none :=
      Option.eq_none_iff_forall_ne_some.mpr fun c hc => simple c (mem_simpleEscapes_iff.mpr hc)
    have hnumber : digitBounds? kind = none :=
      Option.eq_none_iff_forall_ne_some.mpr fun b hb => number b (mem_numberEscapes_iff.mpr hb)
    rw [unescapeFrom_escaped]
    simp only [readEscape, hsimple, hnumber]
    rfl
  | missing hkind run few =>
    rw [unescapeFrom_escaped, readEscape_missing hkind run few]
    rfl
  | invalid hkind run enough value noScalar =>
    rw [unescapeFrom_escaped, readEscape_invalid hkind run enough value noScalar]
    rfl

/-- What is left of a body begins with an item, or there is a fault. -/
theorem exists_item_or_fault (offset : Nat) {left : List Char} (h : left ≠ []) :
    (∃ text c rest, left = text ++ rest ∧ Item text c rest) ∨ ∃ e, Fault offset left e := by
  obtain ⟨c, left, rfl⟩ := List.exists_cons_of_ne_nil h
  by_cases hc : c = '\\'
  · subst hc
    cases left with
    | nil => exact .inr ⟨_, .dangling⟩
    | cons kind left =>
      cases hsimple : simpleEscape? kind with
      | some c =>
        exact .inl ⟨['\\', kind], c, left, rfl, .simple (mem_simpleEscapes_iff.mpr hsimple)⟩
      | none =>
        cases hnumber : digitBounds? kind with
        | none =>
          refine .inr ⟨_, .unknown (fun c hmem => ?_) (fun b hmem => ?_)⟩
          · rw [mem_simpleEscapes_iff, hsimple] at hmem
            cases hmem
          · rw [mem_numberEscapes_iff, hnumber] at hmem
            cases hmem
        | some bounds =>
          obtain ⟨least, most⟩ := bounds
          have hkind := mem_numberEscapes_iff.mpr hnumber
          obtain ⟨digits, rest, rfl, run⟩ := exists_longestRun most left
          have value := isHexNumber_hexNumber run.hex
          rcases Nat.lt_or_ge digits.length least with few | enough
          · exact .inr ⟨_, .missing hkind run few⟩
          · by_cases hvalid : (hexNumber digits).isValidChar
            · refine .inl ⟨'\\' :: kind :: digits, .ofNatAux _ hvalid, rest, rfl,
                .number hkind run enough ?_⟩
              exact value
            · refine .inr ⟨_, .invalid hkind run enough value ?_⟩
              rw [Nat.isValidChar] at hvalid
              omega
  · exact .inl ⟨[c], c, left, rfl, .plain hc⟩

/-! ### Whole bodies -/

/-- A body is split to its end or up to a fault. -/
theorem exists_splits (offset : Nat) (body : List Char) : ∃ before left out,
    body = before ++ left ∧ Splits left before out ∧
      (left = [] ∨ ∃ e, Fault (offset + byteLength before) left e) := by
  by_cases hbody : body = []
  · exact ⟨[], [], [], hbody, .nil, .inl rfl⟩
  · rcases exists_item_or_fault offset hbody with ⟨text, c, rest, rfl, item⟩ | hfault
    · have hlen := item.length_pos
      obtain ⟨before, left, out, rfl, hsplits, hend⟩ :=
        exists_splits (offset + byteLength text) rest
      refine ⟨text ++ before, left, c :: out, by rw [List.append_assoc], .cons item hsplits, ?_⟩
      rwa [byteLength_append, ← Nat.add_assoc]
    · exact ⟨[], body, [], rfl, .nil, .inr hfault⟩
termination_by body.length
decreasing_by
  subst_vars
  rw [List.length_append]
  omega

/-- A body is read item by item, up to what is left. -/
theorem unescapeFrom_splits {left before out : List Char} (h : Splits left before out)
    (offset : Nat) : unescapeFrom offset (before ++ left)
      = (unescapeFrom (offset + byteLength before) left).map (out ++ ·) := by
  induction h generalizing offset with
  | nil =>
    show unescapeFrom offset left = (unescapeFrom offset left).map id
    cases unescapeFrom offset left <;> rfl
  | cons item _ ih =>
    rw [List.append_assoc, unescapeFrom_item item, ih, byteLength_append, Nat.add_assoc]
    cases unescapeFrom _ left <;> rfl

/-- What is split in front of a text is also split on its own. -/
theorem Splits.alone {left before out : List Char} (h : Splits left before out) :
    Splits [] before out := by
  induction h with
  | nil => exact .nil
  | cons item _ ih =>
    refine .cons ?_ ih
    rw [List.append_nil]
    exact item.of_append

theorem unescape_of_splits {body out : List Char} (h : Splits [] body out) :
    unescape body = .ok out := by
  have hread := unescapeFrom_splits h 0
  rw [List.append_nil, unescapeFrom_nil] at hread
  rw [unescape, hread]
  show Except.ok (out ++ []) = _
  rw [List.append_nil]

theorem unescape_of_fault {before left out : List Char} {e : UnescapeError}
    (h : Splits left before out) (hfault : Fault (byteLength before) left e) :
    unescape (before ++ left) = .error e := by
  rw [unescape, unescapeFrom_splits h 0, Nat.zero_add, unescapeFrom_fault hfault]
  rfl

/-- A body is accepted exactly if it splits into items, and then stands for their characters.
Any other body is refused with the fault at the first place where the split fails; the text in
front of this place is accepted on its own, and its length in bytes is the offset. -/
theorem unescape_grammar (body : List Char) :
    (∀ out, unescape body = .ok out ↔ Splits [] body out) ∧
    ∀ e, unescape body = .error e ↔ ∃ before left out, body = before ++ left ∧
      unescape before = .ok out ∧ Splits left before out ∧ Fault (byteLength before) left e := by
  obtain ⟨before, left, out, rfl, hsplits, hend⟩ := exists_splits 0 body
  rw [Nat.zero_add] at hend
  constructor
  · refine fun s => ⟨fun h => ?_, unescape_of_splits⟩
    rcases hend with rfl | ⟨e, hfault⟩
    · rw [List.append_nil] at h ⊢
      rw [unescape_of_splits hsplits] at h
      exact Except.ok.inj h ▸ hsplits
    · rw [unescape_of_fault hsplits hfault] at h
      cases h
  · refine fun e => ⟨fun h => ?_, ?_⟩
    · rcases hend with rfl | ⟨e', hfault⟩
      · rw [List.append_nil, unescape_of_splits hsplits] at h
        cases h
      · rw [unescape_of_fault hsplits hfault] at h
        obtain rfl := Except.error.inj h
        exact ⟨before, left, out, rfl, unescape_of_splits hsplits.alone, hsplits, hfault⟩
    · rintro ⟨before', left', out', heq, -, hsplits', hfault⟩
      rw [heq]
      exact unescape_of_fault hsplits' hfault

end LiteralForm.Text
