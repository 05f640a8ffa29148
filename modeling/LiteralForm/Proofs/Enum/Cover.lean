/-
The greedy cover of a pattern.

`greedyCover` walks a list of named patterns and takes each one that is still uncovered.
`taken` keeps the patterns beside the names it takes:

* `greedyCover_fst`: the names are those of the patterns taken;
* `union_taken`: the patterns taken and the bits left over make up the whole pattern;
* `decompose_eq_some_iff`: a decomposition lists the names taken when nothing is left.
-/
import LiteralForm.Enum.Flags

namespace LiteralForm

/-- The named patterns that `greedyCover` takes. -/
def taken (remaining : Nat) : List (String × Nat) → List (String × Nat)
  | [] => []
  | p :: rest =>
    if remaining &&& p.2 = p.2 then p :: taken (remaining ^^^ p.2) rest
    else taken remaining rest

/-- All bits of a list of named patterns. -/
def union (ps : List (String × Nat)) : Nat := ps.foldr (fun p bits => p.2 ||| bits) 0

@[simp] theorem union_nil : union [] = 0 := rfl

@[simp] theorem union_cons (p : String × Nat) (ps : List (String × Nat)) :
    union (p :: ps) = p.2 ||| union ps := rfl

theorem union_append (ps qs : List (String × Nat)) :
    union (ps ++ qs) = union ps ||| union qs := by
  induction ps with
  | nil => simp
  | cons p ps ih => simp [ih, Nat.or_assoc]

theorem union_reverse (ps : List (String × Nat)) : union ps.reverse = union ps := by
  induction ps with
  | nil => rfl
  | cons p ps ih => simp [union_append, ih, Nat.or_comm]

theorem testBit_union {ps : List (String × Nat)} {i : Nat} :
    (union ps).testBit i = true ↔ ∃ p ∈ ps, p.2.testBit i = true := by
  induction ps with
  | nil => simp
  | cons p ps ih => simp [ih]

/-- A pattern inside another one, put back after it was taken out. -/
theorem or_xor_of_and_eq {a p : Nat} (h : a &&& p = p) : p ||| (a ^^^ p) = a := by
  refine Nat.eq_of_testBit_eq fun i => ?_
  have hi : (a.testBit i && p.testBit i) = p.testBit i := by rw [← Nat.testBit_and, h]
  rw [Nat.testBit_or, Nat.testBit_xor]
  revert hi
  cases a.testBit i <;> cases p.testBit i <;> simp

theorem greedyCover_fst (remaining : Nat) (ps : List (String × Nat)) :
    (greedyCover remaining ps).1 = (taken remaining ps).map Prod.fst := by
  induction ps generalizing remaining with
  | nil => rfl
  | cons p ps ih =>
    obtain ⟨name, pattern⟩ := p
    rw [greedyCover, taken]
    split
    · simp [ih]
    · exact ih remaining

theorem taken_sublist (remaining : Nat) (ps : List (String × Nat)) :
    (taken remaining ps).Sublist ps := by
  induction ps generalizing remaining with
  | nil => exact List.Sublist.refl []
  | cons p ps ih =>
    rw [taken]
    split
    · exact (ih _).cons_cons p
    · exact (ih remaining).cons p

/-- The patterns taken cover exactly the bits that are not left over. -/
theorem union_taken (remaining : Nat) (ps : List (String × Nat)) :
    union (taken remaining ps) ||| (greedyCover remaining ps).2 = remaining := by
  induction ps generalizing remaining with
  | nil => simp [taken, greedyCover]
  | cons p ps ih =>
    obtain ⟨name, pattern⟩ := p
    rw [greedyCover, taken]
    split
    · next h =>
      simp only [union_cons, Nat.or_assoc, ih]
      exact or_xor_of_and_eq h
    · exact ih remaining

namespace EnumType

/-- The bits of a value that the greedy walk leaves uncovered. -/
def uncovered (e : EnumType) (raw : Int) : Nat := (greedyCover (e.bits raw) e.candidates).2

theorem decompose_eq_some_iff {e : EnumType} {raw : Int} {names : List String} :
    e.decompose raw = some names ↔ e.isFlags ∧ e.uncovered raw = 0 ∧
      names = ((taken (e.bits raw) e.candidates).map Prod.fst).reverse := by
  unfold decompose uncovered
  by_cases hf : e.isFlags
  · by_cases hz : (greedyCover (e.bits raw) e.candidates).2 = 0
    · simp [hf, hz, greedyCover_fst, eq_comm]
    · simp [hf, hz]
  · simp [hf]

/-- A candidate is a declared constant with its pattern, which is not zero. -/
theorem mem_candidates {e : EnumType} {p : String × Nat} :
    p ∈ e.candidates ↔ p.2 ≠ 0 ∧ ∃ c ∈ e.constants.entries, (c.1, e.bits c.2.val) = p := by
  simp [candidates, patterns, List.mem_mergeSort, and_comm]

end EnumType

end LiteralForm
