/-
Words with checked operations.

An operation on words of a fixed width either gives its exact result or stops with a `Fault`:

* `add_eq_ok_iff` and its siblings: an operation gives a word exactly if the value of that word is
  the exact result, so that it stops exactly if the result fits no word;
* `shifted_of_lt`: a shift by fewer places than the word has does not stop;
* `splitAt_of_le`: nor does a split inside a list or at its end;
* `add_ofNat` and its siblings: words of small numbers compute like the numbers.

Design notes: the faults are a layer of their own, apart from the errors that a reader reports.  A
computation that is `.ok (.error e)` has met no fault and refuses its input.
-/
import Mathlib.Data.List.Basic

namespace LiteralForm.Word

/-! Powers of natural numbers are the built-in ones, whatever else is imported. -/
attribute [local instance (2000)] instPowNat

/-- The reason why a computation stops. -/
inductive Fault
  /-- The exact result does not fit the word. -/
  | overflow
  /-- A word is shifted by as many places as it has, or by more. -/
  | wideShift
  /-- A list is split behind its end. -/
  | splitOutOfRange
  deriving DecidableEq, Repr

/-- A result, unless a fault has stopped the computation. -/
abbrev Checked (α : Type) := Except Fault α

theorem ok_bind {α β : Type} (a : α) (f : α → Checked β) : (Except.ok a >>= f) = f a := rfl

/-- The result, unless the condition for a fault holds. -/
def check {α : Type} (fault : Fault) (fails : Bool) (result : α) : Checked α :=
  if fails then .error fault else .ok result

theorem check_eq_ok_iff {α : Type} {fault : Fault} {fails : Bool} {result a : α} :
    check fault fails result = .ok a ↔ ¬fails = true ∧ result = a := by
  cases fails <;> simp [check]

variable {w : Nat}

/-! ### Operations -/

/-- The sum of two words without a sign. -/
def add (a b : BitVec w) : Checked (BitVec w) := check .overflow (a.uaddOverflow b) (a + b)

/-- The difference of two words without a sign. -/
def sub (a b : BitVec w) : Checked (BitVec w) := check .overflow (a.usubOverflow b) (a - b)

/-- The product of two words without a sign. -/
def mul (a b : BitVec w) : Checked (BitVec w) := check .overflow (a.umulOverflow b) (a * b)

/-- The sum of two words with a sign. -/
def addSigned (a b : BitVec w) : Checked (BitVec w) := check .overflow (a.saddOverflow b) (a + b)

/-- The product of two words with a sign. -/
def mulSigned (a b : BitVec w) : Checked (BitVec w) := check .overflow (a.smulOverflow b) (a * b)

/-- The negative of a word with a sign. -/
def negSigned (a : BitVec w) : Checked (BitVec w) := check .overflow a.negOverflow (-a)

/-- The result of a shift by `n` places. -/
def shifted (n : Nat) (result : BitVec w) : Checked (BitVec w) := check .wideShift (w ≤ n) result

/-- A word shifted to the left. -/
def shiftLeft (a : BitVec w) (n : Nat) : Checked (BitVec w) := shifted n (a <<< n)

/-- A word shifted to the right, with zeros from the left. -/
def shiftRight (a : BitVec w) (n : Nat) : Checked (BitVec w) := shifted n (a >>> n)

/-- A word shifted to the right, with copies of its sign from the left. -/
def shiftRightSigned (a : BitVec w) (n : Nat) : Checked (BitVec w) := shifted n (a.sshiftRight n)

/-- The first `n` members of a list, and the others. -/
def splitAt {α : Type} (l : List α) (n : Nat) : Checked (List α × List α) :=
  check .splitOutOfRange (l.length < n) (l.splitAt n)

/-! ### When they succeed -/

section Exact

variable {a b r : BitVec w}

/-- An operation that is right where it does not overflow, and overflows where no word is right,
gives the right word and nothing else. -/
theorem check_overflow_eq_ok_iff {α : Type} {value : BitVec w → α} {exact : α} {overflows : Bool}
    {result : BitVec w} (injective : ∀ {x y}, value x = value y → x = y)
    (right : ¬overflows = true → value result = exact)
    (fits : value r = exact → ¬overflows = true) :
    check .overflow overflows result = .ok r ↔ value r = exact := by
  rw [check_eq_ok_iff]
  constructor
  · rintro ⟨hfits, rfl⟩
    exact right hfits
  · intro hr
    exact ⟨fits hr, injective ((right (fits hr)).trans hr.symm)⟩

theorem add_eq_ok_iff : add a b = .ok r ↔ r.toNat = a.toNat + b.toNat := by
  refine check_overflow_eq_ok_iff BitVec.eq_of_toNat_eq BitVec.toNat_add_of_not_uaddOverflow ?_
  intro hr hover
  have hlt := r.isLt
  have hge := of_decide_eq_true hover
  omega

theorem sub_eq_ok_iff : sub a b = .ok r ↔ r.toNat + b.toNat = a.toNat := by
  refine check_overflow_eq_ok_iff (fun h => BitVec.eq_of_toNat_eq (Nat.add_right_cancel h)) ?_ ?_
  · intro hfits
    have hle := Nat.not_lt.mp fun h => hfits (decide_eq_true h)
    rw [BitVec.toNat_sub_of_not_usubOverflow hfits, Nat.sub_add_cancel hle]
  · intro hr hover
    have hlt := of_decide_eq_true hover
    omega

theorem mul_eq_ok_iff : mul a b = .ok r ↔ r.toNat = a.toNat * b.toNat := by
  refine check_overflow_eq_ok_iff BitVec.eq_of_toNat_eq BitVec.toNat_mul_of_not_umulOverflow ?_
  intro hr hover
  have hlt := r.isLt
  have hge := of_decide_eq_true hover
  omega

theorem addSigned_eq_ok_iff : addSigned a b = .ok r ↔ r.toInt = a.toInt + b.toInt := by
  refine check_overflow_eq_ok_iff BitVec.eq_of_toInt_eq BitVec.toInt_add_of_not_saddOverflow ?_
  intro hr hover
  have hle := r.le_toInt
  have hlt := r.toInt_lt
  rw [BitVec.saddOverflow, Bool.or_eq_true, decide_eq_true_iff, decide_eq_true_iff] at hover
  omega

theorem mulSigned_eq_ok_iff : mulSigned a b = .ok r ↔ r.toInt = a.toInt * b.toInt := by
  refine check_overflow_eq_ok_iff BitVec.eq_of_toInt_eq BitVec.toInt_mul_of_not_smulOverflow ?_
  intro hr hover
  have hle := r.le_toInt
  have hlt := r.toInt_lt
  rw [BitVec.smulOverflow, Bool.or_eq_true, decide_eq_true_iff, decide_eq_true_iff] at hover
  omega

theorem negSigned_eq_ok_iff : negSigned a = .ok r ↔ r.toInt = -a.toInt := by
  refine check_overflow_eq_ok_iff BitVec.eq_of_toInt_eq BitVec.toInt_neg_of_not_negOverflow ?_
  intro hr hover
  have hlt := r.toInt_lt
  have hmin : a.toInt = -2 ^ (w - 1) := beq_iff_eq.mp hover
  omega

end Exact

theorem shifted_of_lt {n : Nat} (h : n < w) (result : BitVec w) : shifted n result = .ok result :=
  check_eq_ok_iff.mpr ⟨by simp [h], rfl⟩

theorem splitAt_of_le {α : Type} {l : List α} {n : Nat} (h : n ≤ l.length) :
    splitAt l n = .ok (l.take n, l.drop n) :=
  check_eq_ok_iff.mpr ⟨by simp [h], List.splitAt_eq ..⟩

/-! ### Words of small numbers -/

section Small

variable {m n : Nat}

theorem toNat_ofNat_of_lt (h : n < 2 ^ w) : (BitVec.ofNat w n).toNat = n := by
  rw [BitVec.toNat_ofNat, Nat.mod_eq_of_lt h]

theorem toInt_ofNat_of_lt (h : 2 * n < 2 ^ w) : (BitVec.ofNat w n).toInt = n := by
  have hn : (BitVec.ofNat w n).toNat = n := toNat_ofNat_of_lt (by omega)
  rw [BitVec.toInt_eq_toNat_of_lt (by rw [hn]; exact h), hn]

theorem add_ofNat (h : m + n < 2 ^ w) :
    add (BitVec.ofNat w m) (BitVec.ofNat w n) = .ok (BitVec.ofNat w (m + n)) := by
  rw [add_eq_ok_iff, toNat_ofNat_of_lt h, toNat_ofNat_of_lt (by omega),
    toNat_ofNat_of_lt (by omega)]

theorem sub_ofNat (hle : n ≤ m) (hm : m < 2 ^ w) :
    sub (BitVec.ofNat w m) (BitVec.ofNat w n) = .ok (BitVec.ofNat w (m - n)) := by
  rw [sub_eq_ok_iff, toNat_ofNat_of_lt hm, toNat_ofNat_of_lt (by omega),
    toNat_ofNat_of_lt (by omega), Nat.sub_add_cancel hle]

theorem mul_ofNat (hm : m < 2 ^ w) (hn : n < 2 ^ w) (h : m * n < 2 ^ w) :
    mul (BitVec.ofNat w m) (BitVec.ofNat w n) = .ok (BitVec.ofNat w (m * n)) := by
  rw [mul_eq_ok_iff, toNat_ofNat_of_lt h, toNat_ofNat_of_lt hm, toNat_ofNat_of_lt hn]

theorem addSigned_ofNat (h : 2 * (m + n) < 2 ^ w) :
    addSigned (BitVec.ofNat w m) (BitVec.ofNat w n) = .ok (BitVec.ofNat w (m + n)) := by
  rw [addSigned_eq_ok_iff, toInt_ofNat_of_lt h, toInt_ofNat_of_lt (by omega),
    toInt_ofNat_of_lt (by omega), Int.natCast_add]

theorem mulSigned_ofNat (hm : 2 * m < 2 ^ w) (hn : 2 * n < 2 ^ w) (h : 2 * (m * n) < 2 ^ w) :
    mulSigned (BitVec.ofNat w m) (BitVec.ofNat w n) = .ok (BitVec.ofNat w (m * n)) := by
  rw [mulSigned_eq_ok_iff, toInt_ofNat_of_lt h, toInt_ofNat_of_lt hm, toInt_ofNat_of_lt hn,
    Int.natCast_mul]

end Small

end LiteralForm.Word
