/-
Documents that can be kept.

A part of a document that is kept before it is known what it is has to be sound.  What is written
for a value without enum values and floating-point numbers is sound.

* `isSome_toDouble?_ofInt`: an integer of 64 bits is a finite floating-point number;
* `TypeRef.isSound_toJson`, `Value.isSound_content`: types and the contents of plain kinds are
  sound, where brackets may be opened as deep as they need.

Design notes: that a number is finite is seen from bounds on the bits that rounding loses, not
from the number that it is rounded to.
-/
import LiteralForm.Proofs.Float.Nearest
import LiteralForm.Proofs.Json.Content

namespace LiteralForm

/-! Powers of natural numbers are the built-in ones, whatever else is imported. -/
attribute [local instance (2000)] instPowNat

/-! ### Rounding stays finite -/

namespace FloatFormat

/-- A quotient that exceeds the precision by some bits is rounded to a magnitude with an exponent
of not much more. -/
theorem round_le {f : FloatFormat} {num den extra : Nat}
    (h : num * 2 ^ f.unitExponent / den < 2 ^ (f.fractionBits + extra)) :
    f.round num den ≤ (extra + 2) * 2 ^ f.fractionBits := by
  set quotient := num * 2 ^ f.unitExponent / den with hquotient
  have hlost : f.lostBits quotient ≤ extra := by
    unfold lostBits
    by_cases hzero : quotient = 0
    · simp [hzero]
    · have := (Nat.log2_lt hzero).mpr h
      omega
  have hkept := (f.lostBits_spec quotient).1
  have hround : roundHalfEven (num * 2 ^ f.unitExponent) (den * 2 ^ f.lostBits quotient)
      ≤ 2 * 2 ^ f.fractionBits := by
    rw [hquotient, Nat.div_div_eq_div_mul, ← hquotient] at hkept
    rcases roundHalfEven_cases (num * 2 ^ f.unitExponent) (den * 2 ^ f.lostBits quotient)
      with ⟨_, hr⟩ | ⟨_, hr⟩ | ⟨_, hr⟩ <;> omega
  have hshift := Nat.mul_le_mul_right (2 ^ f.fractionBits) hlost
  rw [Nat.add_mul]
  refine (Nat.min_le_right _ _).trans ?_
  rw [← hquotient]
  omega

theorem units_le {f : FloatFormat} {m extra : Nat} (h : m ≤ (extra + 1) * 2 ^ f.fractionBits) :
    f.units m ≤ 2 ^ (f.fractionBits + extra) := by
  refine (f.units_strictMono.monotone h).trans ?_
  rw [Nat.add_mul, Nat.one_mul, units_add (by omega) (.inr (Nat.le_refl _)), Nat.pow_add]

theorem units_one : double.units (double.ofNat 1) = 2 ^ double.unitExponent := by
  obtain ⟨exponent, hexponent, hone⟩ : ∃ k, double.fractionBits + k = double.unitExponent ∧
      double.ofNat 1 = k * 2 ^ double.fractionBits + 2 ^ double.fractionBits :=
    ⟨1022, rfl, by decide +kernel⟩
  rw [hone, units_add (by omega) (.inr (Nat.le_refl _)), ← Nat.pow_add, hexponent]

/-- A natural number of 64 bits stays finite, also when it is multiplied by one. -/
theorem mul_ofNat_one_lt_infinity {n : Nat} (h : n < 2 ^ 64) :
    double.mul (double.ofNat n) (double.ofNat 1) < double.infinity := by
  have hpos : 0 < 2 ^ double.unitExponent := Nat.two_pow_pos _
  have hn : double.ofNat n ≤ (1086 + 2) * 2 ^ double.fractionBits := by
    refine round_le ?_
    rw [Nat.div_one, show double.fractionBits + 1086 = 64 + double.unitExponent by rfl, Nat.pow_add]
    exact Nat.mul_lt_mul_of_pos_right h hpos
  have hunits : double.units (double.ofNat n) ≤ 2 ^ (double.fractionBits + 1087) := units_le hn
  have hmul : double.mul (double.ofNat n) (double.ofNat 1)
      ≤ (1088 + 2) * 2 ^ double.fractionBits := by
    refine round_le ?_
    rw [units_one, Nat.mul_assoc, Nat.mul_div_cancel _ (Nat.mul_pos hpos hpos)]
    exact Nat.lt_of_le_of_lt hunits (Nat.pow_lt_pow_right (by decide) (by omega))
  exact Nat.lt_of_le_of_lt hmul (by decide)

end FloatFormat

/-! ### Integers -/

namespace Numeral

/-- Digits are kept to their end if the number they make fits 64 bits. -/
theorem keepDigits_eq {ds : List Char} {n : Nat}
    (h : Nat.ofDigitChars 10 ds n ≤ maxSignificand) :
    keepDigits n ds = (Nat.ofDigitChars 10 ds n, 0) := by
  induction ds generalizing n with
  | nil => simp [keepDigits]
  | cons c ds ih =>
    rw [Nat.ofDigitChars_cons] at h ⊢
    have hle := le_ofDigitChars ds (10 * n + (c.toNat - '0'.toNat))
    simp only [keepDigits, Nat.mul_comm n 10, if_pos (Nat.le_trans hle h), ih h]

theorem leading_ofInt {n : Int} (h : n.natAbs ≤ maxSignificand) :
    (ofInt n).leading = ⟨n.natAbs, 0⟩ := by
  have hdigits : Nat.ofDigitChars 10 (Nat.toDigits 10 n.natAbs) 0 = n.natAbs :=
    Nat.ofDigitChars_ten_toDigits
  have hkeep : keepDigits 0 (ofInt n).whole = (n.natAbs, 0) := by
    show keepDigits 0 (Nat.toDigits 10 n.natAbs) = _
    rw [keepDigits_eq (by rw [hdigits]; exact h), hdigits]
  rw [leading, hkeep]
  rfl

theorem isSome_toDouble?_ofInt {n : Int} (h : n.natAbs ≤ maxSignificand) :
    (ofInt n).toDouble?.isSome = true := by
  have hlt := FloatFormat.mul_ofNat_one_lt_infinity (Nat.lt_succ_of_le h)
  rw [toDouble?, leading_ofInt h, scaleByPower]
  simp [hlt]

end Numeral

/-- What a kind of at most 64 bits holds fits the digits that a numeral keeps. -/
theorem Integral.natAbs_le (n : Integral) : n.value.natAbs ≤ Numeral.maxSignificand := by
  have hmax : Numeral.maxSignificand = 2 ^ 64 - 1 := rfl
  have hrange := n.inRange
  cases hkind : n.kind <;>
    simp [hkind, IntKind.InRange, IntKind.minValue, IntKind.maxValue, IntKind.isSigned,
      IntKind.width] at hrange <;>
    omega

namespace Json

theorem isSound_ofInt (room : Nat) {n : Int} (h : n.natAbs ≤ Numeral.maxSignificand) :
    isSound room (ofInt n) = true := Numeral.isSome_toDouble?_ofInt h

/-! ### Records -/

@[simp] theorem isSound_ofString (room : Nat) (s : String) : isSound room (ofString s) = true :=
  rfl

@[simp] theorem isSound_ofOption (room : Nat) (s : Option String) :
    isSound room (ofOption s) = true := by
  cases s <;> rfl

@[simp] theorem isSound_array (room : Nat) (items : List Json) :
    isSound (room + 1) (array items) = areSound room items := rfl

@[simp] theorem isSound_ofFields (room : Nat) (fs : List (String × Json)) :
    isSound (room + 1) (ofFields fs) = fs.all fun f => isSound room f.2 := by
  show areMembersSound room (fs.map fun f => (some f.1, f.2)) = _
  induction fs with
  | nil => rfl
  | cons f fs ih =>
    rw [List.map_cons, areMembersSound, ih, List.all_cons]
    rfl

end Json

/-! ### Types and values -/

namespace TypeRef

mutual

theorem isSound_toJson (t : TypeRef) {room : Nat} (h : t.toJson.depth ≤ room) :
    t.toJson.isSound room = true := by
  match t with
  | .primitive p =>
    simp only [toJson, Json.depth_ofFields_cons] at h
    obtain ⟨n, rfl⟩ : ∃ n, room = n + 1 := ⟨room - 1, by omega⟩
    simp [toJson]
  | .nullable t =>
    simp only [toJson, Json.depth_ofFields_cons] at h
    obtain ⟨n, rfl⟩ : ∃ n, room = n + 1 := ⟨room - 1, by omega⟩
    simp [toJson, isSound_toJson t (show t.toJson.depth ≤ n by omega)]
  | .array e r =>
    simp only [toJson, Json.depth_ofFields_cons] at h
    obtain ⟨n, rfl⟩ : ∃ n, room = n + 2 := ⟨room - 2, by omega⟩
    have hrank : (Json.ofInt r.toNat).isSound n = true := by
      refine Json.isSound_ofInt n (Nat.le_of_lt (Nat.lt_trans r.toNat_lt ?_))
      decide
    simp [toJson, isSound_toJson e (show e.toJson.depth ≤ n by omega), hrank]
  | .named path name args =>
    simp only [toJson, Json.depth_ofFields_cons, Json.depth_array] at h
    obtain ⟨n, rfl⟩ : ∃ n, room = n + 3 := ⟨room - 3, by omega⟩
    simp [toJson, areSound_listToJson args (show Json.itemsDepth (listToJson args) ≤ n by omega)]

theorem areSound_listToJson (ts : List TypeRef) {room : Nat}
    (h : Json.itemsDepth (listToJson ts) ≤ room) :
    Json.areSound room (listToJson ts) = true := by
  match ts with
  | [] => rfl
  | t :: ts =>
    rw [listToJson, Json.itemsDepth] at h
    rw [listToJson, Json.areSound, isSound_toJson t (by omega), areSound_listToJson ts (by omega)]
    rfl

end

end TypeRef

theorem Value.isSound_content {v : Value} (hv : v.isPlain = true) {room : Nat}
    (h : v.content.depth ≤ room) : v.content.isSound room = true := by
  cases v with
  | null | float32 _ | float64 _ | enum _ | struct _ _ => cases hv
  | string _ | char _ | decimal _ | bool _ => rfl
  | integral n => exact Json.isSound_ofInt room n.natAbs_le
  | type t => exact t.isSound_toJson h
  | method t name =>
    simp only [content, Json.depth_ofFields_cons] at h
    obtain ⟨n, rfl⟩ : ∃ n, room = n + 1 := ⟨room - 1, by omega⟩
    simp [content, t.isSound_toJson (show t.toJson.depth ≤ n by omega)]
  | unsupported t =>
    simp only [content, Json.depth_ofFields_cons] at h
    obtain ⟨n, rfl⟩ : ∃ n, room = n + 1 := ⟨room - 1, by omega⟩
    simp [content]

end LiteralForm
