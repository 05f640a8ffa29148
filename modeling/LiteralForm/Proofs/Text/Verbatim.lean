/-
The choice between quoted and verbatim strings.

* `prefersVerbatim_iff`: looking for the character that exceeds the threshold is counting the
  characters that make a quoted text hard to read, and comparing;
* `isWrittenVerbatim_iff`: the literal of a string begins accordingly;
* `verbatim_iff_threshold_lt`: so the choice depends on the count alone.

Design notes: what is counted is stated as a proposition on characters of its own, and the reader's
test is shown to decide it (`isBusy_iff`).
-/
import LiteralForm.Text.Literal
import Mathlib.Data.List.Count

namespace LiteralForm.Text

/-- A character that a quoted text is hard to read with: a backslash, or a control character below
the blank that is no carriage return. -/
def Crowds (c : Char) : Prop := c = '\\' ∨ (c < ' ' ∧ c ≠ '\r')

instance : DecidablePred Crowds := fun _ => inferInstanceAs (Decidable (_ ∨ _))

/-- The number of characters that crowd a text. -/
def crowding (s : List Char) : Nat := s.countP fun c => Crowds c

/-- The literal of the string has the verbatim form. -/
def IsWrittenVerbatim (threshold : Nat) (s : String) : Prop :=
  (stringLiteral threshold s).toList.head? = some '@'

theorem isBusy_iff {c : Char} : isBusy c = true ↔ Crowds c := by
  have hlt : c.toNat < 0x20 ↔ c < ' ' := Iff.rfl
  rw [isBusy, Crowds, Bool.or_eq_true, Bool.and_eq_true, decide_eq_true_iff, bne_iff_ne,
    beq_iff_eq, hlt, or_comm]

@[simp] theorem crowding_nil : crowding [] = 0 := rfl

theorem crowding_cons (c : Char) (s : List Char) :
    crowding (c :: s) = crowding s + if isBusy c then 1 else 0 := by
  rw [crowding, List.countP_cons, crowding]
  simp only [decide_eq_true_iff, isBusy_iff]

theorem crowding_append (s t : List Char) : crowding (s ++ t) = crowding s + crowding t :=
  List.countP_append

/-- The search stops at the character that exceeds the threshold, so it succeeds exactly if there
are more than `threshold` of them. -/
theorem prefersVerbatim_iff {threshold : Nat} {s : List Char} :
    prefersVerbatim threshold s = true ↔ threshold < crowding s := by
  induction s generalizing threshold with
  | nil => simp [prefersVerbatim]
  | cons c s ih =>
    rw [crowding_cons]
    by_cases hc : isBusy c = true
    · rw [if_pos hc]
      cases threshold with
      | zero =>
        rw [prefersVerbatim, hc, Bool.true_or]
        exact iff_of_true rfl (Nat.succ_pos _)
      | succ t =>
        rw [prefersVerbatim, if_pos hc, ih]
        omega
    · rw [if_neg hc, Nat.add_zero, ← ih]
      cases threshold with
      | zero => rw [prefersVerbatim, Bool.eq_false_iff.mpr hc, Bool.false_or]
      | succ t => rw [prefersVerbatim, if_neg hc]

theorem isWrittenVerbatim_iff {threshold : Nat} {s : String} :
    IsWrittenVerbatim threshold s ↔ threshold < crowding s.toList := by
  rw [← prefersVerbatim_iff, IsWrittenVerbatim, stringLiteral, String.toList_ofList]
  by_cases h : prefersVerbatim threshold s.toList = true
  · rw [if_pos h]
    exact iff_of_true rfl h
  · rw [if_neg h]
    refine iff_of_false ?_ h
    rintro ⟨⟩

/-- A string is written verbatim exactly if the number of its backslashes and control characters
other than the carriage return exceeds the threshold.  The order of its characters does not matter,
a greater threshold makes no more strings verbatim, and neither does taking text out of one. -/
theorem verbatim_iff_threshold_lt :
    (∀ (threshold : Nat) (s : List Char),
      prefersVerbatim threshold s = true ↔ threshold < crowding s) ∧
    (∀ (threshold : Nat) (s : String),
      IsWrittenVerbatim threshold s ↔ threshold < crowding s.toList) ∧
    (∀ (threshold : Nat) (s t : String), s.toList.Perm t.toList →
      (IsWrittenVerbatim threshold s ↔ IsWrittenVerbatim threshold t)) ∧
    (∀ (low high : Nat) (s : String), low ≤ high →
      IsWrittenVerbatim high s → IsWrittenVerbatim low s) ∧
    ∀ (threshold : Nat) (s inserted t : String),
      IsWrittenVerbatim threshold (s ++ t) → IsWrittenVerbatim threshold (s ++ inserted ++ t) := by
  refine ⟨fun _ _ => prefersVerbatim_iff, fun _ _ => isWrittenVerbatim_iff, ?_, ?_, ?_⟩
  · intro threshold s t hperm
    have hcount : crowding s.toList = crowding t.toList := hperm.countP_eq _
    rw [isWrittenVerbatim_iff, isWrittenVerbatim_iff, hcount]
  · intro low high s hle hverbatim
    rw [isWrittenVerbatim_iff] at hverbatim ⊢
    omega
  · intro threshold s inserted t hverbatim
    rw [isWrittenVerbatim_iff, String.toList_append, crowding_append] at hverbatim
    rw [isWrittenVerbatim_iff, String.toList_append, String.toList_append, crowding_append,
      crowding_append]
    omega

/-- A text with four characters that count and a carriage return, which does not. -/
def crowded : String := "\\\r" ++ "\t\\\n"

theorem verbatim_iff_threshold_lt_crowded :
    crowding crowded.toList = 4 ∧ crowded.toList.Perm "\n\t\r\\\\".toList ∧
    IsWrittenVerbatim 3 crowded ∧ ¬IsWrittenVerbatim 4 crowded ∧
    IsWrittenVerbatim 3 "\n\t\r\\\\" ∧ IsWrittenVerbatim 2 crowded ∧
    IsWrittenVerbatim 3 ("\\\r" ++ "plain" ++ "\t\\\n") := by
  have hcount : crowding crowded.toList = 4 := by decide
  have hperm : crowded.toList.Perm "\n\t\r\\\\".toList := by decide
  obtain ⟨-, hiff, hsame, hlower, hinsert⟩ := verbatim_iff_threshold_lt
  have hthree : IsWrittenVerbatim 3 crowded := by
    rw [hiff, hcount]
    decide
  have hfour : ¬IsWrittenVerbatim 4 crowded := by
    rw [hiff, hcount]
    decide
  exact ⟨hcount, hperm, hthree, hfour, (hsame 3 _ _ hperm).mp hthree,
    hlower 2 3 crowded (by decide) hthree, hinsert 3 _ "plain" _ hthree⟩

end LiteralForm.Text
