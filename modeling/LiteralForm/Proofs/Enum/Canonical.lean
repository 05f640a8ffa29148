/-
The canonical cover of a flags value.

`EnumType.IsCanonical` describes a set of constants by the declaration alone: they are disjoint
parts of the pattern of a value, and a part that is not among them overlaps one of them that is
at least as great.

* `isCanonical_cover`: the greedy walk takes such a set;
* `IsCanonical.unique`: there is only one;
* `decompose_canonical`: a decomposition lists that set in ascending order, if it makes up the
  whole pattern.

Design notes: patterns are read as sets of bits (`Within`, `Overlap`).  The walk visits greater
patterns first and, of equal ones, the one declared first, because the sort is stable; so what it
leaves out overlaps something it took earlier.  Uniqueness is by induction from the greatest
pattern down: two canonical sets that agree on all greater patterns agree on the next one.
-/
import LiteralForm.Proofs.Enum.Injective
import Mathlib.Data.List.Pairwise
import Mathlib.Data.Nat.Bitwise

namespace LiteralForm

/-! ### Patterns as sets of bits -/

/-- All bits of the first pattern are bits of the second one. -/
def Within (p q : Nat) : Prop := ∀ i, p.testBit i = true → q.testBit i = true

/-- The patterns have a bit in common. -/
def Overlap (p q : Nat) : Prop := ∃ i, p.testBit i = true ∧ q.testBit i = true

theorem within_iff_and_eq {p q : Nat} : Within p q ↔ q &&& p = p := by
  constructor
  · intro h
    refine Nat.eq_of_testBit_eq fun i => ?_
    rw [Nat.testBit_and]
    cases hp : p.testBit i with
    | false => exact Bool.and_false _
    | true => rw [h i hp, Bool.and_true]
  · intro h i hp
    rw [← h, Nat.testBit_and, Bool.and_eq_true] at hp
    exact hp.1

theorem Within.le {p q : Nat} (h : Within p q) : p ≤ q := by
  rw [← within_iff_and_eq.mp h]
  exact Nat.and_le_left

theorem Overlap.symm {p q : Nat} (h : Overlap p q) : Overlap q p := by
  obtain ⟨i, hp, hq⟩ := h
  exact ⟨i, hq, hp⟩

/-- A pattern that is not zero overlaps itself. -/
theorem overlap_self {p : Nat} (h : p ≠ 0) : Overlap p p := by
  obtain ⟨i, hi⟩ := Nat.exists_testBit_of_ne_zero h
  exact ⟨i, hi, hi⟩

/-- What is left when a part is taken out holds the other parts that do not overlap it. -/
theorem within_xor_iff {p q r : Nat} (hp : Within p r) :
    Within q (r ^^^ p) ↔ Within q r ∧ ¬Overlap p q := by
  constructor
  · intro h
    refine ⟨fun i hi => ?_, ?_⟩
    · have hx := h i hi
      rw [Nat.testBit_xor] at hx
      cases hpi : p.testBit i with
      | false => rwa [hpi, Bool.xor_false] at hx
      | true => exact hp i hpi
    · rintro ⟨i, hpi, hqi⟩
      have hx := h i hqi
      rw [Nat.testBit_xor, hpi, hp i hpi] at hx
      cases hx
  · rintro ⟨hq, hover⟩ i hi
    rw [Nat.testBit_xor, hq i hi]
    cases hpi : p.testBit i with
    | false => rfl
    | true => exact absurd ⟨i, hpi, hi⟩ hover

/-! ### The greedy walk -/

section Walk

variable {remaining : Nat} {p q : String × Nat} {ps : List (String × Nat)}

theorem taken_cons_of_within (h : Within p.2 remaining) (ps : List (String × Nat)) :
    taken remaining (p :: ps) = p :: taken (remaining ^^^ p.2) ps := by
  rw [taken, if_pos (within_iff_and_eq.mp h)]

theorem taken_cons_of_not_within (h : ¬Within p.2 remaining) (ps : List (String × Nat)) :
    taken remaining (p :: ps) = taken remaining ps := by
  rw [taken, if_neg fun heq => h (within_iff_and_eq.mpr heq)]

/-- What is taken is a part of the pattern. -/
theorem within_of_mem_taken (h : q ∈ taken remaining ps) : Within q.2 remaining := by
  induction ps generalizing remaining with
  | nil => cases h
  | cons p ps ih =>
    by_cases hp : Within p.2 remaining
    · rw [taken_cons_of_within hp, List.mem_cons] at h
      rcases h with rfl | h
      · exact hp
      · exact ((within_xor_iff hp).mp (ih h)).1
    · rw [taken_cons_of_not_within hp] at h
      exact ih h

/-- The parts that are taken do not overlap. -/
theorem pairwise_taken (remaining : Nat) (ps : List (String × Nat)) :
    (taken remaining ps).Pairwise fun p q => ¬Overlap p.2 q.2 := by
  induction ps generalizing remaining with
  | nil => exact List.Pairwise.nil
  | cons p ps ih =>
    by_cases hp : Within p.2 remaining
    · rw [taken_cons_of_within hp, List.pairwise_cons]
      exact ⟨fun q hq => ((within_xor_iff hp).mp (within_of_mem_taken hq)).2, ih _⟩
    · rw [taken_cons_of_not_within hp]
      exact ih remaining

/-- A part that is left out overlaps a part that was taken before its turn. -/
theorem exists_overlap_of_notMem_taken (hq : q ∈ ps) (hwithin : Within q.2 remaining)
    (hnot : q ∉ taken remaining ps) :
    ∃ p ∈ taken remaining ps, [p, q].Sublist ps ∧ Overlap p.2 q.2 := by
  induction ps generalizing remaining with
  | nil => cases hq
  | cons p ps ih =>
    by_cases hp : Within p.2 remaining
    · rw [taken_cons_of_within hp] at hnot ⊢
      rw [List.mem_cons, not_or] at hnot
      have hmem : q ∈ ps := (List.mem_cons.mp hq).resolve_left hnot.1
      by_cases hover : Overlap p.2 q.2
      · exact ⟨p, List.mem_cons_self, (List.singleton_sublist.mpr hmem).cons_cons p, hover⟩
      · obtain ⟨o, ho, hbefore, hover⟩ :=
          ih hmem ((within_xor_iff hp).mpr ⟨hwithin, hover⟩) hnot.2
        exact ⟨o, List.mem_cons_of_mem p ho, hbefore.cons p, hover⟩
    · rw [taken_cons_of_not_within hp] at hnot ⊢
      have hmem : q ∈ ps := by
        refine (List.mem_cons.mp hq).resolve_left ?_
        rintro rfl
        exact hp hwithin
      obtain ⟨o, ho, hbefore, hover⟩ := ih hmem hwithin hnot
      exact ⟨o, ho, hbefore.cons p, hover⟩

/-- Of two entries with one pattern the later one is not taken. -/
theorem notMem_taken_of_alias (hbefore : [p, q].Sublist ps) (heq : p.2 = q.2) (hne : q.2 ≠ 0)
    (hnodup : ps.Nodup) : q ∉ taken remaining ps := by
  induction ps generalizing remaining with
  | nil => cases hbefore
  | cons o ps ih =>
    rw [List.nodup_cons] at hnodup
    have hmem : q ∈ ps := List.singleton_sublist.mp (by simpa using hbefore.tail)
    have hqo : q ≠ o := by
      rintro rfl
      exact hnodup.1 hmem
    intro hq
    by_cases ho : Within o.2 remaining
    · rw [taken_cons_of_within ho] at hq
      have hrest := (List.mem_cons.mp hq).resolve_left hqo
      cases hbefore with
      | cons _ hbefore => exact ih hbefore hnodup.2 hrest
      | cons_cons _ _ =>
        -- The first entry with the pattern was taken, and the later one overlaps it.
        refine ((within_xor_iff ho).mp (within_of_mem_taken hrest)).2 ?_
        rw [heq]
        exact overlap_self hne
    · rw [taken_cons_of_not_within ho] at hq
      cases hbefore with
      | cons _ hbefore => exact ih hbefore hnodup.2 hq
      | cons_cons _ _ => exact ho (heq ▸ within_of_mem_taken hq)

/-- The bits left over are those of the pattern that no part taken has. -/
theorem greedyCover_snd (remaining : Nat) (ps : List (String × Nat)) :
    (greedyCover remaining ps).2 = remaining ^^^ union (taken remaining ps) := by
  induction ps generalizing remaining with
  | nil => simp [greedyCover, taken]
  | cons p ps ih =>
    obtain ⟨name, pattern⟩ := p
    by_cases hp : Within pattern remaining
    · rw [greedyCover, if_pos (within_iff_and_eq.mp hp), taken_cons_of_within hp, union_cons]
      refine (ih (remaining ^^^ pattern)).trans (Nat.eq_of_testBit_eq fun i => ?_)
      -- What was taken afterwards is a part of the rest, so it has no bit of this pattern.
      have hrest : (union (taken (remaining ^^^ pattern) ps)).testBit i = true →
          pattern.testBit i = false := by
        intro hu
        by_contra hpi
        rw [Bool.not_eq_false] at hpi
        have hall := union_taken (remaining ^^^ pattern) ps
        have hbit : (remaining ^^^ pattern).testBit i = true := by
          rw [← hall, Nat.testBit_or, hu, Bool.true_or]
        rw [Nat.testBit_xor, hp i hpi, hpi] at hbit
        cases hbit
      simp only [Nat.testBit_xor, Nat.testBit_or]
      cases hu : (union (taken (remaining ^^^ pattern) ps)).testBit i with
      | false => simp
      | true => simp [hrest hu]
    · rw [greedyCover, if_neg fun heq => hp (within_iff_and_eq.mpr heq),
        taken_cons_of_not_within hp, ih]

end Walk

namespace EnumType

/-! ### Canonical sets of constants -/

/-- A set of declared constants that are disjoint parts of the pattern of a value, and of which
one that is at least as great is overlapped by every part that is left out. -/
structure IsCanonical (e : EnumType) (raw : Int) (G : Set (String × Int128)) : Prop where
  declared : ∀ c ∈ G, c ∈ e.constants.entries
  nonzero : ∀ c ∈ G, e.bits c.2.val ≠ 0
  within : ∀ c ∈ G, Within (e.bits c.2.val) (e.bits raw)
  /-- Each constant is the first one with its pattern. -/
  first : ∀ c ∈ G,
    e.constants.entries.find? (fun d => e.bits d.2.val == e.bits c.2.val) = some c
  disjoint : ∀ c ∈ G, ∀ d ∈ G, c ≠ d → ¬Overlap (e.bits c.2.val) (e.bits d.2.val)
  greedy : ∀ c ∈ e.constants.entries, e.bits c.2.val ≠ 0 →
    Within (e.bits c.2.val) (e.bits raw) → c ∉ G →
      ∃ d ∈ G, e.bits c.2.val ≤ e.bits d.2.val ∧ Overlap (e.bits c.2.val) (e.bits d.2.val)

variable {e : EnumType} {raw : Int}

/-- What one canonical set has, the other one has, if it does so for all greater patterns. -/
theorem IsCanonical.mem_of_mem {G H : Set (String × Int128)} (hG : e.IsCanonical raw G)
    (hH : e.IsCanonical raw H) {c : String × Int128}
    (ih : ∀ d ∈ H, e.bits c.2.val < e.bits d.2.val → d ∈ G) (hc : c ∈ G) : c ∈ H := by
  by_contra hnot
  obtain ⟨d, hd, hle, hover⟩ :=
    hH.greedy c (hG.declared c hc) (hG.nonzero c hc) (hG.within c hc) hnot
  rcases Nat.lt_or_eq_of_le hle with hlt | heq
  · have hne : c ≠ d := by
      rintro rfl
      exact Nat.lt_irrefl _ hlt
    exact hG.disjoint c hc d (ih d hd hlt) hne hover
  · -- Both are the first constant with their pattern.
    have hfirst := hH.first d hd
    rw [← heq, hG.first c hc] at hfirst
    exact hnot (Option.some.inj hfirst ▸ hd)

theorem IsCanonical.mem_iff {G H : Set (String × Int128)} (hG : e.IsCanonical raw G)
    (hH : e.IsCanonical raw H) {room : Nat} {c : String × Int128}
    (h : e.bits raw - e.bits c.2.val ≤ room) : c ∈ G ↔ c ∈ H := by
  induction room generalizing c with
  | zero =>
    -- No part is greater than the whole.
    have hgreatest : ∀ {K : Set (String × Int128)}, e.IsCanonical raw K → ∀ d ∈ K,
        ¬e.bits c.2.val < e.bits d.2.val := by
      intro K hK d hd hlt
      have hle := (hK.within d hd).le
      omega
    exact ⟨hG.mem_of_mem hH fun d hd hlt => absurd hlt (hgreatest hH d hd),
      hH.mem_of_mem hG fun d hd hlt => absurd hlt (hgreatest hG d hd)⟩
  | succ room ih =>
    exact ⟨hG.mem_of_mem hH fun d hd hlt => (ih (by omega)).mpr hd,
      hH.mem_of_mem hG fun d hd hlt => (ih (by omega)).mp hd⟩

/-- There is only one canonical set. -/
theorem IsCanonical.unique {G H : Set (String × Int128)} (hG : e.IsCanonical raw G)
    (hH : e.IsCanonical raw H) : G = H :=
  Set.ext fun _ => hG.mem_iff hH (Nat.le_refl _)

/-! ### The constants that the walk takes -/

/-- A constant with its pattern. -/
def named (e : EnumType) (c : String × Int128) : String × Nat := (c.1, e.bits c.2.val)

/-- The constants that the greedy walk takes. -/
def cover (e : EnumType) (raw : Int) : Set (String × Int128) :=
  {c | c ∈ e.constants.entries ∧ e.named c ∈ taken (e.bits raw) e.candidates}

/-- Nothing is left over exactly if what is taken makes up the whole pattern. -/
theorem uncovered_eq_zero_iff :
    e.uncovered raw = 0 ↔ union (taken (e.bits raw) e.candidates) = e.bits raw := by
  rw [uncovered, greedyCover_snd, Nat.xor_eq_zero_iff, eq_comm]

/-- A pattern that is taken belongs to a constant of the cover. -/
theorem exists_mem_cover {p : String × Nat} (hp : p ∈ taken (e.bits raw) e.candidates) :
    ∃ c ∈ e.cover raw, e.named c = p := by
  obtain ⟨-, c, hc, rfl⟩ := mem_candidates.mp ((taken_sublist _ _).subset hp)
  exact ⟨c, ⟨hc, hp⟩, rfl⟩

theorem named_injective {c d : String × Int128} (hc : c ∈ e.constants.entries)
    (hd : d ∈ e.constants.entries) (h : e.named c = e.named d) : c = d :=
  Constants.eq_of_name_eq hc hd (Prod.mk.inj h).1

theorem named_mem_candidates {c : String × Int128} (hc : c ∈ e.constants.entries)
    (h : e.bits c.2.val ≠ 0) : e.named c ∈ e.candidates :=
  mem_candidates.mpr ⟨h, c, hc, rfl⟩

theorem greaterPattern_trans (p q r : String × Nat) (hpq : decide (q.2 ≤ p.2) = true)
    (hqr : decide (r.2 ≤ q.2) = true) : decide (r.2 ≤ p.2) = true :=
  decide_eq_true (Nat.le_trans (of_decide_eq_true hqr) (of_decide_eq_true hpq))

theorem greaterPattern_total (p q : String × Nat) :
    (decide (q.2 ≤ p.2) || decide (p.2 ≤ q.2)) = true := by
  simp only [Bool.or_eq_true, decide_eq_true_eq]
  exact Nat.le_total q.2 p.2

theorem pairwise_candidates (e : EnumType) : e.candidates.Pairwise fun p q => q.2 ≤ p.2 := by
  have hsorted : e.candidates.Pairwise fun p q => decide (q.2 ≤ p.2) = true :=
    List.pairwise_mergeSort greaterPattern_trans greaterPattern_total _
  exact hsorted.imp fun h => of_decide_eq_true h

theorem nodup_map_named (e : EnumType) : (e.constants.entries.map e.named).Nodup := by
  have hnames : ((e.constants.entries.map e.named).map Prod.fst).Nodup := by
    rw [List.map_map]
    exact e.constants.distinct
  exact List.Nodup.of_map _ hnames

theorem nodup_candidates (e : EnumType) : e.candidates.Nodup :=
  (List.mergeSort_perm _ _).nodup_iff.mpr (e.nodup_map_named.filter _)

/-- Constants with one pattern keep the order of their declaration. -/
theorem named_sublist_candidates {c d : String × Int128}
    (h : [c, d].Sublist e.constants.entries) (heq : e.bits c.2.val = e.bits d.2.val)
    (hne : e.bits d.2.val ≠ 0) : [e.named c, e.named d].Sublist e.candidates := by
  refine List.pair_sublist_mergeSort greaterPattern_trans greaterPattern_total
    (decide_eq_true heq.ge) ?_
  have hfilter : [e.named c, e.named d].filter (fun p => p.2 != 0) = [e.named c, e.named d] := by
    simp [named, heq, hne]
  rw [← hfilter]
  exact (h.map e.named).filter _

/-- The constants that the walk takes are canonical. -/
theorem isCanonical_cover (e : EnumType) (raw : Int) : e.IsCanonical raw (e.cover raw) where
  declared c hc := hc.1
  nonzero c hc := by
    obtain ⟨hne, -⟩ := mem_candidates.mp ((taken_sublist _ _).subset hc.2)
    exact hne
  within c hc := within_of_mem_taken hc.2
  first c hc := by
    obtain ⟨hdecl, htaken⟩ := hc
    obtain ⟨hne, -⟩ := mem_candidates.mp ((taken_sublist _ _).subset htaken)
    obtain ⟨before, after, hsplit⟩ := List.append_of_mem hdecl
    rw [List.find?_eq_some_iff_append]
    refine ⟨beq_self_eq_true _, before, after, hsplit, fun d hd => ?_⟩
    -- A constant with the same pattern in front would have been taken instead.
    rw [Bool.not_eq_true', beq_eq_false_iff_ne]
    intro heq
    have hbefore : [d, c].Sublist e.constants.entries := by
      rw [hsplit]
      exact (List.singleton_sublist.mpr hd).append
        (List.singleton_sublist.mpr List.mem_cons_self)
    exact notMem_taken_of_alias (named_sublist_candidates hbefore heq hne) heq hne
      e.nodup_candidates htaken
  disjoint c hc d hd hcd := by
    have hne : e.named c ≠ e.named d := fun h => hcd (named_injective hc.1 hd.1 h)
    have : Std.Symm fun p q : String × Nat => ¬Overlap p.2 q.2 := ⟨fun _ _ h => mt Overlap.symm h⟩
    exact (pairwise_taken _ _).forall hc.2 hd.2 hne
  greedy c hc hne hwithin hnot := by
    have htaken : e.named c ∉ taken (e.bits raw) e.candidates := fun h => hnot ⟨hc, h⟩
    obtain ⟨p, hp, hbefore, hover⟩ :=
      exists_overlap_of_notMem_taken (named_mem_candidates hc hne) hwithin htaken
    obtain ⟨-, d, hd, rfl⟩ := mem_candidates.mp ((taken_sublist _ _).subset hp)
    have hle := List.pairwise_pair.mp (e.pairwise_candidates.sublist hbefore)
    exact ⟨d, ⟨hd, hp⟩, hle, hover.symm⟩

/-- The patterns taken are in strictly descending order. -/
theorem pairwise_lt_taken (e : EnumType) (raw : Int) :
    (taken (e.bits raw) e.candidates).Pairwise fun p q => q.2 < p.2 := by
  have hsorted := e.pairwise_candidates.sublist (taken_sublist (e.bits raw) e.candidates)
  refine ((hsorted.and (pairwise_taken _ _)).imp_of_mem fun {p q} _ hq h => ?_)
  obtain ⟨hne, -⟩ := mem_candidates.mp ((taken_sublist _ _).subset hq)
  refine Nat.lt_of_le_of_ne h.1 fun heq => h.2 ?_
  rw [← heq]
  exact overlap_self hne

/-- The constants of the cover in ascending order of their patterns. -/
theorem exists_list_cover (e : EnumType) (raw : Int) : ∃ cs : List (String × Int128),
    e.cover raw = {c | c ∈ cs} ∧ cs.map e.named = (taken (e.bits raw) e.candidates).reverse := by
  have hmem : ∀ p ∈ (taken (e.bits raw) e.candidates).reverse, p ∈ e.candidates := fun p hp =>
    (taken_sublist _ _).subset (List.mem_reverse.mp hp)
  obtain ⟨cs, hdecl, hmap⟩ := exists_constants hmem
  change cs.map e.named = _ at hmap
  refine ⟨cs, Set.ext fun c => ⟨fun hc => ?_, fun hc => ?_⟩, hmap⟩
  · have hcs : e.named c ∈ cs.map e.named := by
      rw [hmap, List.mem_reverse]
      exact hc.2
    obtain ⟨d, hd, heq⟩ := List.mem_map.mp hcs
    exact named_injective (hdecl d hd) hc.1 heq ▸ hd
  · refine ⟨hdecl c hc, ?_⟩
    rw [← List.mem_reverse, ← hmap]
    exact List.mem_map_of_mem hc

/-- The constants of the cover, in descending order of their patterns, are what the walk takes. -/
theorem taken_eq_map {cs : List (String × Int128)} (hcover : e.cover raw = {c | c ∈ cs})
    (hdesc : cs.Pairwise fun c d => e.bits d.2.val < e.bits c.2.val) :
    taken (e.bits raw) e.candidates = cs.map e.named := by
  have hsorted : (cs.map e.named).Pairwise fun p q => q.2 < p.2 := List.pairwise_map.mpr hdesc
  have hnodup : ∀ ps : List (String × Nat), ps.Pairwise (fun p q => q.2 < p.2) → ps.Nodup := by
    intro ps h
    refine h.imp ?_
    intro p q hlt heq
    exact Nat.ne_of_lt hlt (congrArg Prod.snd heq.symm)
  have hperm : (taken (e.bits raw) e.candidates).Perm (cs.map e.named) := by
    rw [List.perm_ext_iff_of_nodup (hnodup _ (e.pairwise_lt_taken raw)) (hnodup _ hsorted)]
    intro p
    constructor
    · intro hp
      obtain ⟨c, hc, rfl⟩ := exists_mem_cover hp
      rw [hcover] at hc
      exact List.mem_map_of_mem hc
    · intro hp
      obtain ⟨c, hc, rfl⟩ := List.mem_map.mp hp
      have hmem : c ∈ e.cover raw := by
        rw [hcover]
        exact hc
      exact hmem.2
  refine List.Perm.eq_of_pairwise ?_ (e.pairwise_lt_taken raw) hsorted hperm
  intro p q _ _ hqp hpq
  exact absurd hpq (Nat.lt_asymm hqp)

/-- A flags value is decomposed by the one canonical set of constants: their names in ascending
order of their patterns, if these make up the pattern of the value.  Every other value, and every
value of an enum without flags, has no decomposition. -/
theorem decompose_canonical (e : EnumType) (raw : Int) :
    (∃! G, e.IsCanonical raw G) ∧
    ∃ cs : List (String × Int128), e.IsCanonical raw {c | c ∈ cs} ∧
      cs.Pairwise (fun c d => e.bits c.2.val < e.bits d.2.val) ∧
      e.decompose raw = if e.isFlags = true ∧ union (cs.map e.named) = e.bits raw
        then some (cs.map Prod.fst) else none := by
  have hcover := e.isCanonical_cover raw
  refine ⟨⟨e.cover raw, hcover, fun G hG => hG.unique hcover⟩, ?_⟩
  obtain ⟨cs, hcs, hmap⟩ := e.exists_list_cover raw
  refine ⟨cs, hcs ▸ hcover, ?_, ?_⟩
  · have hdesc := List.pairwise_reverse.mpr (e.pairwise_lt_taken raw)
    rw [← hmap, List.pairwise_map] at hdesc
    exact hdesc
  · have hnames : cs.map Prod.fst = ((taken (e.bits raw) e.candidates).map Prod.fst).reverse := by
      rw [← List.map_reverse, ← hmap, List.map_map]
      rfl
    have hunion : union (cs.map e.named) = e.bits raw ↔ e.uncovered raw = 0 := by
      rw [hmap, union_reverse, uncovered, greedyCover_snd, Nat.xor_eq_zero_iff, eq_comm]
    split
    · next h => exact decompose_eq_some_iff.mpr ⟨h.1, hunion.mp h.2, hnames⟩
    · next h =>
      rw [Option.eq_none_iff_forall_ne_some]
      intro names hsome
      obtain ⟨hflags, hleft, -⟩ := decompose_eq_some_iff.mp hsome
      exact h ⟨hflags, hunion.mpr hleft⟩

end EnumType

end LiteralForm
