/-
An escaped text is decoded whatever follows it.

* `unescapeFrom_add`: a body that begins later has the same characters, or the same fault with
  a later offset;
* `unescapeFrom_item`: an item is decoded as the character it stands for, and decoding goes on as
  many bytes later as the item has;
* `unescape_escape_append`: an escaped text in front of a body adds its characters to those of
  the body and its length in bytes to the offset of a fault.

Design notes: that a written character stops at its own end is known of items in general.  What is
shown here is that the decoder's own tables agree with those of the items, and that the letter and
the digits of an escape take one byte each.
-/
import LiteralForm.Proofs.Text.Item
import LiteralForm.Text.Span
import LiteralForm.Text.Unescape

namespace LiteralForm.Text

/-- The same fault in a body that begins `n` bytes later. -/
def UnescapeError.shift (n : Nat) : UnescapeError → UnescapeError
  | dangling => .dangling
  | unknownEscape c => .unknownEscape c
  | missingHexDigits kind offset => .missingHexDigits kind (offset + n)
  | invalidCodePoint offset => .invalidCodePoint (offset + n)

/-! ### Bytes -/

@[simp] theorem byteLength_nil : byteLength [] = 0 := rfl

@[simp] theorem byteLength_cons (c : Char) (s : List Char) :
    byteLength (c :: s) = c.utf8Size + byteLength s := rfl

@[simp] theorem byteLength_append (s t : List Char) :
    byteLength (s ++ t) = byteLength s + byteLength t := by
  induction s with
  | nil => simp
  | cons c s ih => rw [List.cons_append, byteLength_cons, byteLength_cons, ih, Nat.add_assoc]

theorem byteLength_eq_length {s : List Char} (h : ∀ c ∈ s, c.utf8Size = 1) :
    byteLength s = s.length := by
  induction s with
  | nil => rfl
  | cons c s ih =>
    rw [byteLength_cons, List.length_cons, h c List.mem_cons_self,
      ih fun d hd => h d (List.mem_cons_of_mem c hd), Nat.add_comm]

theorem utf8Size_eq_one {c : Char} (h : c ≤ '\x7f') : c.utf8Size = 1 :=
  Char.utf8Size_eq_one_iff.mpr h

theorem le_of_hexDigit {c : Char} (h : (hexDigit? c).isSome) : c ≤ 'f' := by
  unfold hexDigit? at h
  split at h
  · next hc => exact Char.le_trans hc.2 (by decide)
  split at h
  · next hc => exact Char.le_trans hc.2 (by decide)
  split at h
  · next hc => exact Char.le_trans hc.2 (by decide)
  · cases h

theorem utf8Size_of_hexDigit {c : Char} (h : (hexDigit? c).isSome) : c.utf8Size = 1 :=
  utf8Size_eq_one (Char.le_trans (le_of_hexDigit h) (by decide))

theorem utf8Size_of_simpleEscape {kind c : Char} (h : simpleEscape? kind = some c) :
    kind.utf8Size = 1 := by
  unfold simpleEscape? at h
  split at h
  case h_12 => cases h
  all_goals rfl

theorem utf8Size_of_digitBounds {kind : Char} {bounds : Nat × Nat}
    (h : digitBounds? kind = some bounds) : kind.utf8Size = 1 := by
  unfold digitBounds? at h
  split at h
  case h_4 => cases h
  all_goals rfl

/-! ### One step of reading -/

@[simp] theorem unescapeFrom_nil (offset : Nat) : unescapeFrom offset [] = .ok [] := by
  rw [unescapeFrom.eq_def]

theorem unescapeFrom_cons {c : Char} (hc : c ≠ '\\') (offset : Nat) (rest : List Char) :
    unescapeFrom offset (c :: rest) = (unescapeFrom (offset + c.utf8Size) rest).map (c :: ·) := by
  rw [unescapeFrom.eq_def]
  dsimp only
  rw [if_pos hc]
  cases unescapeFrom (offset + c.utf8Size) rest <;> rfl

theorem unescapeFrom_lone (offset : Nat) : unescapeFrom offset ['\\'] = .error .dangling := by
  rw [unescapeFrom.eq_def]
  dsimp only
  rw [if_neg (by simp)]

theorem unescapeFrom_escaped (offset : Nat) (kind : Char) (rest : List Char) :
    unescapeFrom offset ('\\' :: kind :: rest) = (readEscape offset kind rest).bind
      fun (d, taken) => (unescapeFrom (offset + 2 + taken) (rest.drop taken)).map (d :: ·) := by
  rw [unescapeFrom.eq_def]
  dsimp only
  rw [if_neg (by simp)]
  cases readEscape offset kind rest with
  | error e => rfl
  | ok read =>
    obtain ⟨d, taken⟩ := read
    dsimp only [Except.bind]
    cases unescapeFrom (offset + 2 + taken) (rest.drop taken) <;> rfl

/-! ### A body that begins later -/

theorem map_mapError {ε α : Type} (f : α → α) (g : ε → ε) (x : Except ε α) :
    (x.mapError g).map f = (x.map f).mapError g := by
  cases x <;> rfl

theorem readEscape_add (n offset : Nat) (kind : Char) (rest : List Char) :
    readEscape (offset + n) kind rest = (readEscape offset kind rest).mapError (·.shift n) := by
  unfold readEscape
  cases simpleEscape? kind with
  | some c => rfl
  | none =>
    cases digitBounds? kind with
    | none => rfl
    | some bounds =>
      dsimp only
      split
      · rfl
      · split <;> rfl

theorem unescapeFrom_add (n offset : Nat) (body : List Char) :
    unescapeFrom (offset + n) body = (unescapeFrom offset body).mapError (·.shift n) := by
  match body with
  | [] => simp only [unescapeFrom_nil]; rfl
  | c :: rest =>
    by_cases hc : c = '\\'
    · subst hc
      match rest with
      | [] => rw [unescapeFrom_lone, unescapeFrom_lone]; rfl
      | kind :: rest =>
        rw [unescapeFrom_escaped, unescapeFrom_escaped, readEscape_add]
        cases readEscape offset kind rest with
        | error e => rfl
        | ok read =>
          obtain ⟨d, taken⟩ := read
          show (unescapeFrom (offset + n + 2 + taken) (rest.drop taken)).map (d :: ·)
            = ((unescapeFrom (offset + 2 + taken) (rest.drop taken)).map (d :: ·)).mapError _
          -- What is left behind the escape begins later by the same number of bytes.
          rw [show offset + n + 2 + taken = offset + 2 + taken + n by omega, unescapeFrom_add n,
            map_mapError]
    · rw [unescapeFrom_cons hc, unescapeFrom_cons hc, Nat.add_right_comm, unescapeFrom_add n,
        map_mapError]
termination_by body.length
decreasing_by
  · simp only [List.length_drop, List.length_cons]
    omega
  · simp

/-! ### The decoder's tables -/

theorem mem_simpleEscapes_iff {kind c : Char} :
    (kind, c) ∈ simpleEscapes ↔ simpleEscape? kind = some c := by
  constructor
  · intro h
    have hall : ∀ p ∈ simpleEscapes, simpleEscape? p.1 = some p.2 := by decide
    exact hall (kind, c) h
  · intro h
    unfold simpleEscape? at h
    split at h
    case h_12 => cases h
    all_goals
      obtain rfl := Option.some.inj h
      decide

theorem mem_numberEscapes_iff {kind : Char} {bounds : Nat × Nat} :
    (kind, bounds) ∈ numberEscapes ↔ digitBounds? kind = some bounds := by
  constructor
  · intro h
    have hall : ∀ p ∈ numberEscapes, digitBounds? p.1 = some p.2 := by decide
    exact hall (kind, bounds) h
  · intro h
    unfold digitBounds? at h
    split at h
    case h_4 => cases h
    all_goals
      obtain rfl := Option.some.inj h
      decide

theorem simpleEscape?_of_number {kind : Char} {bounds : Nat × Nat}
    (h : (kind, bounds) ∈ numberEscapes) : simpleEscape? kind = none := by
  have hall : ∀ p ∈ numberEscapes, simpleEscape? p.1 = none := by decide
  exact hall (kind, bounds) h

theorem isHexDigit_iff {c : Char} {n : Nat} : IsHexDigit c n ↔ hexDigit? c = some n := by
  constructor
  · exact fun h => h.eq_some (by decide) (by decide)
  · intro h
    -- A character past the greatest digit is none, so there are few to look at.
    have hall : ∀ m : Fin 103, ∀ k ∈ hexDigit? (Char.ofNat m), IsHexDigit (Char.ofNat m) k := by
      unfold IsHexDigit
      decide
    have hlt : c.toNat < 103 := Nat.lt_succ_of_le (le_of_hexDigit (by rw [h]; rfl))
    have hc := hall ⟨c.toNat, hlt⟩ n
    rw [Char.ofNat_toNat] at hc
    exact hc h

theorem isSome_hexDigit?_iff {c : Char} : (hexDigit? c).isSome ↔ ∃ n, IsHexDigit c n := by
  rw [Option.isSome_iff_exists]
  exact exists_congr fun n => isHexDigit_iff.symm

/-! ### Digits and their numbers -/

/-- Digits behind a number multiply it by a power and add their own number. -/
theorem foldl_hexDigits {digits : List Char} {ns : List Nat}
    (h : List.Forall₂ IsHexDigit digits ns) (a : Nat) :
    digits.foldl (fun n c => n * 16 + (hexDigit? c).getD 0) a
      = a * 16 ^ ns.length + Nat.ofDigits 16 ns.reverse := by
  induction h generalizing a with
  | nil => simp
  | cons hd _ ih =>
    rw [List.foldl_cons, ih, isHexDigit_iff.mp hd, Option.getD_some, List.reverse_cons,
      Nat.ofDigits_append, Nat.ofDigits_singleton, List.length_reverse, List.length_cons]
    ring

theorem IsHexNumber.eq {digits : List Char} {n : Nat} (h : IsHexNumber digits n) :
    hexNumber digits = n := by
  obtain ⟨ns, hns, rfl⟩ := h
  rw [hexNumber, foldl_hexDigits hns, Nat.zero_mul, Nat.zero_add]

theorem isHexNumber_hexNumber {digits : List Char} (h : ∀ c ∈ digits, ∃ n, IsHexDigit c n) :
    IsHexNumber digits (hexNumber digits) := by
  obtain ⟨n, hn⟩ := exists_isHexNumber h
  rwa [hn.eq]

/-- The number of a character is the number of that character. -/
theorem charOfNumber?_toNat (c : Char) : charOfNumber? c.toNat = some c := by
  have hv : c.toNat.isValidChar := c.valid
  simp [charOfNumber?, hv]

/-! ### Items -/

theorem readEscape_simple (offset : Nat) {kind c : Char} (h : simpleEscape? kind = some c)
    (rest : List Char) : readEscape offset kind rest = .ok (c, 0) := by
  simp [readEscape, h]

theorem readEscape_scalar {kind : Char} {least most : Nat} {digits rest : List Char}
    (h : (kind, least, most) ∈ numberEscapes) (run : LongestRun most digits rest)
    (enough : least ≤ digits.length) {c : Char} (value : IsHexNumber digits c.toNat)
    (offset : Nat) :
    readEscape offset kind (digits ++ rest) = .ok (c, digits.length) := by
  simp only [readEscape, simpleEscape?_of_number h, mem_numberEscapes_iff.mp h,
    run.takeWhile_eq isSome_hexDigit?_iff, if_neg (Nat.not_lt.mpr enough), value.eq,
    charOfNumber?_toNat]

theorem unescapeFrom_item {text rest : List Char} {c : Char} (h : Item text c rest)
    (offset : Nat) : unescapeFrom offset (text ++ rest)
      = (unescapeFrom (offset + byteLength text) rest).map (c :: ·) := by
  cases h with
  | plain hc => exact unescapeFrom_cons hc offset rest
  | @simple kind _ _ hkind =>
    have hread := mem_simpleEscapes_iff.mp hkind
    have hsize : byteLength ['\\', kind] = 2 := by
      rw [byteLength_cons, byteLength_cons, utf8Size_of_simpleEscape hread]
      rfl
    rw [hsize]
    show unescapeFrom offset ('\\' :: kind :: rest) = _
    rw [unescapeFrom_escaped, readEscape_simple offset hread]
    rfl
  | @number kind _ least most digits _ hkind run enough value =>
    have hdigits : byteLength digits = digits.length := byteLength_eq_length fun d hd =>
      utf8Size_of_hexDigit (isSome_hexDigit?_iff.mpr (run.hex d hd))
    have hsize : offset + byteLength ('\\' :: kind :: digits) = offset + 2 + digits.length := by
      rw [byteLength_cons, byteLength_cons, hdigits,
        utf8Size_of_digitBounds (mem_numberEscapes_iff.mp hkind)]
      show offset + (1 + (1 + digits.length)) = _
      omega
    rw [hsize]
    show unescapeFrom offset ('\\' :: kind :: (digits ++ rest)) = _
    rw [unescapeFrom_escaped, readEscape_scalar hkind run enough value offset]
    show (unescapeFrom (offset + 2 + digits.length) ((digits ++ rest).drop digits.length)).map _ = _
    rw [List.drop_left]

/-! ### Escaped texts -/

theorem unescapeFrom_escape (offset : Nat) (s rest : List Char) :
    unescapeFrom offset (escape s ++ rest)
      = (unescapeFrom (offset + byteLength (escape s)) rest).map (s ++ ·) := by
  induction s generalizing offset with
  | nil =>
    show unescapeFrom offset rest = (unescapeFrom offset rest).map id
    cases unescapeFrom offset rest <;> rfl
  | cons c s ih =>
    rw [escape_cons, List.append_assoc, unescapeFrom_item (item_escapeChar .double c _), ih,
      byteLength_append, Nat.add_assoc]
    cases unescapeFrom _ rest <;> rfl

/-- An escaped text is decoded independently of the body that follows it: its characters come
first, or the fault of the body is found as many bytes later as the escaped text takes.  With
nothing behind it, an escaped text is decoded to the text itself. -/
theorem unescape_escape_append (s t : List Char) :
    unescape (escape s ++ t)
      = (match unescape t with
        | .ok u => .ok (s ++ u)
        | .error e => .error (e.shift (byteLength (escape s)))) ∧
    unescape (escape s) = .ok s := by
  have happend : ∀ t, unescape (escape s ++ t)
      = ((unescape t).mapError (·.shift (byteLength (escape s)))).map (s ++ ·) := by
    intro t
    rw [unescape, unescapeFrom_escape, unescapeFrom_add, unescape]
  constructor
  · rw [happend]
    cases unescape t <;> rfl
  · have hnil : unescape [] = .ok [] := by rw [unescape, unescapeFrom]
    have h := happend []
    rw [List.append_nil, hnil] at h
    rw [h]
    show Except.ok (s ++ []) = _
    rw [List.append_nil]

end LiteralForm.Text
