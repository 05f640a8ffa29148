/-
Strings of decimal digits.

Every numeral that is written is built from `Nat.toDigits 10` by padding with zeros and by
cutting; the number that a string of digits denotes is `Nat.ofDigitChars 10`.

* `isDigits_toDigits`, `IsDigits.append`: what is built that way consists of digits;
* `takeWhile_digits`, `dropWhile_digits`: a reader finds where the digits end;
* `ofDigitChars_leftpad`: padding on the left keeps the number;
* `eq_of_ofDigitChars_eq`, `toDigits_ofDigitChars`: a number and either a length or the absence of
  leading zeros determine a string of digits;
* `LastIsDigit`: what is known of the end of a text that no suffix follows.
-/
import LiteralForm.Proofs.Text.Run

namespace LiteralForm

/-! Powers of natural numbers are the built-in ones, whatever else is imported. -/
attribute [local instance (2000)] instPowNat

/-- A string of one or more decimal digits. -/
structure IsDigits (ds : List Char) : Prop where
  ne_nil : ds ≠ []
  isDigit : ∀ c ∈ ds, c.isDigit = true

/-- The text does not begin with a digit. -/
def EndsDigits (text : List Char) : Prop := ∀ c ∈ text.head?, c.isDigit = false

theorem isDigits_toDigits (n : Nat) : IsDigits (Nat.toDigits 10 n) :=
  ⟨Nat.toDigits_ne_nil, fun _ hc => Nat.isDigit_of_mem_toDigits (by decide) (by decide) hc⟩

theorem isDigits_zero : IsDigits ['0'] := isDigits_toDigits 0

/-- A digit is none of the other characters. -/
theorem ne_of_isDigit {c d : Char} (hc : c.isDigit = true) (hd : d.isDigit = false) : c ≠ d := by
  rintro rfl
  rw [hc] at hd
  contradiction

theorem isDigit_of_mem_replicate {n : Nat} {c : Char} (h : c ∈ List.replicate n '0') :
    c.isDigit = true := by
  obtain ⟨-, rfl⟩ := List.mem_replicate.mp h
  rfl

theorem IsDigits.append {ds es : List Char} (hd : IsDigits ds)
    (he : ∀ c ∈ es, c.isDigit = true) : IsDigits (ds ++ es) := by
  refine ⟨by simp [hd.ne_nil], fun c hc => ?_⟩
  rcases List.mem_append.mp hc with h | h
  · exact hd.isDigit c h
  · exact he c h

/-- Part of a string of digits, if there is anything in it. -/
theorem IsDigits.of_subset {ds es : List Char} (hd : IsDigits ds) (hne : es ≠ [])
    (hsub : es ⊆ ds) : IsDigits es :=
  ⟨hne, fun c hc => hd.isDigit c (hsub hc)⟩

theorem IsDigits.notMem {ds : List Char} (hds : IsDigits ds) {d : Char}
    (hd : d.isDigit = false) : d ∉ ds :=
  fun h => ne_of_isDigit (hds.isDigit d h) hd rfl

theorem IsDigits.leftpad {ds : List Char} (hd : IsDigits ds) (n : Nat) :
    IsDigits (ds.leftpad n '0') := by
  refine ⟨by simp [List.leftpad, hd.ne_nil], fun c hc => ?_⟩
  rcases List.mem_append.mp hc with h | h
  · exact isDigit_of_mem_replicate h
  · exact hd.isDigit c h

/-! ### Reading digits -/

theorem takeWhile_digits {ds rest : List Char} (hd : IsDigits ds) (hr : EndsDigits rest) :
    (ds ++ rest).takeWhile Char.isDigit = ds :=
  Text.takeWhile_run hd.isDigit hr

theorem dropWhile_digits {ds rest : List Char} (hd : IsDigits ds) (hr : EndsDigits rest) :
    (ds ++ rest).dropWhile Char.isDigit = rest :=
  Text.dropWhile_run hd.isDigit hr

/-- The digits at the front of a text are digits. -/
theorem isDigits_takeWhile {text : List Char} (h : text.takeWhile Char.isDigit ≠ []) :
    IsDigits (text.takeWhile Char.isDigit) :=
  ⟨h, fun _ hc => List.all_eq_true.mp List.all_takeWhile _ hc⟩

/-- The last character of the text is a digit. -/
def LastIsDigit (text : List Char) : Prop := ∃ init c, text = init ++ [c] ∧ c.isDigit = true

theorem IsDigits.lastIsDigit {ds : List Char} (hd : IsDigits ds) (text : List Char) :
    LastIsDigit (text ++ ds) := by
  refine ⟨text ++ ds.dropLast, ds.getLast hd.ne_nil, ?_, hd.isDigit _ (List.getLast_mem _)⟩
  rw [List.append_assoc, List.dropLast_concat_getLast]

/-! ### The number of a string of digits -/

theorem ofDigitChars_leftpad (n : Nat) (ds : List Char) :
    Nat.ofDigitChars 10 (ds.leftpad n '0') 0 = Nat.ofDigitChars 10 ds 0 := by
  simp [List.leftpad, Nat.ofDigitChars_append]

theorem le_ofDigitChars (ds : List Char) (n : Nat) : n ≤ Nat.ofDigitChars 10 ds n := by
  induction ds generalizing n with
  | nil => simp
  | cons c ds ih =>
    have := ih (10 * n + (c.toNat - '0'.toNat))
    rw [Nat.ofDigitChars_cons]
    omega

theorem length_leftpad (n : Nat) (ds : List Char) :
    (ds.leftpad n '0').length = max n ds.length := by
  simp only [List.leftpad, List.length_append, List.length_replicate]
  omega

/-! ### The digits of a number -/

theorem toNat_sub_lt_ten {c : Char} (hc : c.isDigit = true) : c.toNat - '0'.toNat < 10 := by
  have hle : c.toNat ≤ 57 := (Char.isDigit_iff_toNat.mp hc).2
  show c.toNat - 48 < 10
  omega

/-- Digits multiply a number in front of them by a power of ten and add less than that power. -/
theorem ofDigitChars_lt {ds : List Char} (hd : ∀ c ∈ ds, c.isDigit = true) (n : Nat) :
    Nat.ofDigitChars 10 ds n < (n + 1) * 10 ^ ds.length := by
  induction ds generalizing n with
  | nil => simp
  | cons c ds ih =>
    rw [List.forall_mem_cons] at hd
    have hc := toNat_sub_lt_ten hd.1
    rw [Nat.ofDigitChars_cons, List.length_cons, Nat.pow_succ]
    calc Nat.ofDigitChars 10 ds (10 * n + (c.toNat - '0'.toNat))
        < (10 * n + (c.toNat - '0'.toNat) + 1) * 10 ^ ds.length := ih hd.2 _
      _ ≤ (n + 1) * 10 * 10 ^ ds.length := Nat.mul_le_mul_right _ (by omega)
      _ = (n + 1) * (10 ^ ds.length * 10) := by rw [Nat.mul_assoc, Nat.mul_comm 10]

/-- Digits behind a point have a number of their own, and so has what stands in front of it. -/
theorem ofDigitChars_append_inj {ds es fs gs : List Char} (hf : ∀ c ∈ fs, c.isDigit = true)
    (hg : ∀ c ∈ gs, c.isDigit = true) (hlen : fs.length = gs.length)
    (h : Nat.ofDigitChars 10 (ds ++ fs) 0 = Nat.ofDigitChars 10 (es ++ gs) 0) :
    Nat.ofDigitChars 10 ds 0 = Nat.ofDigitChars 10 es 0 ∧
      Nat.ofDigitChars 10 fs 0 = Nat.ofDigitChars 10 gs 0 := by
  have hflt := ofDigitChars_lt hf 0
  have hglt := ofDigitChars_lt hg 0
  rw [Nat.zero_add, Nat.one_mul] at hflt hglt
  rw [← hlen] at hglt
  rw [Nat.ofDigitChars_append, Nat.ofDigitChars_eq_ofDigitChars_zero, Nat.ofDigitChars_append,
    Nat.ofDigitChars_eq_ofDigitChars_zero (l := gs), ← hlen] at h
  have hpos : 0 < 10 ^ fs.length := Nat.pow_pos (by decide)
  constructor
  · have hdiv := congrArg (· / 10 ^ fs.length) h
    simpa only [Nat.mul_add_div hpos, Nat.div_eq_of_lt hflt, Nat.div_eq_of_lt hglt,
      Nat.add_zero] using hdiv
  · have hmod := congrArg (· % 10 ^ fs.length) h
    simpa only [Nat.mul_add_mod, Nat.mod_eq_of_lt hflt, Nat.mod_eq_of_lt hglt] using hmod

/-- Strings of digits of one length and one number are equal. -/
theorem eq_of_ofDigitChars_eq {ds es : List Char} (hd : ∀ c ∈ ds, c.isDigit = true)
    (he : ∀ c ∈ es, c.isDigit = true) (hlen : ds.length = es.length)
    (h : Nat.ofDigitChars 10 ds 0 = Nat.ofDigitChars 10 es 0) : ds = es := by
  induction ds generalizing es with
  | nil => exact (List.eq_nil_of_length_eq_zero hlen.symm).symm
  | cons c ds ih =>
    obtain ⟨d, es, rfl⟩ := List.exists_cons_of_length_eq_add_one hlen.symm
    rw [List.forall_mem_cons] at hd he
    have hrest : ds.length = es.length := Nat.succ.inj hlen
    have hsplit : Nat.ofDigitChars 10 ([c] ++ ds) 0 = Nat.ofDigitChars 10 ([d] ++ es) 0 := h
    obtain ⟨hhead, htail⟩ := ofDigitChars_append_inj hd.2 he.2 hrest hsplit
    simp only [Nat.ofDigitChars_cons, Nat.ofDigitChars_nil] at hhead
    have hcge := (Char.isDigit_iff_toNat.mp hd.1).1
    have hdge := (Char.isDigit_iff_toNat.mp he.1).1
    have hcd : c = d := Char.toNat_inj.mp (by omega)
    rw [hcd, ih hd.2 he.2 hrest htail]

theorem ofDigitChars_eq_zero_iff {ds : List Char} (hd : ∀ c ∈ ds, c.isDigit = true) :
    Nat.ofDigitChars 10 ds 0 = 0 ↔ ∀ c ∈ ds, c = '0' := by
  constructor
  · intro h c hc
    have hzeros : ds = List.replicate ds.length '0' := by
      refine eq_of_ofDigitChars_eq hd (fun _ => isDigit_of_mem_replicate) (by simp) ?_
      rw [h, Nat.ofDigitChars_replicate_zero, Nat.mul_zero]
    rw [hzeros] at hc
    exact List.eq_of_mem_replicate hc
  · intro h
    rw [List.eq_replicate_of_mem h, Nat.ofDigitChars_replicate_zero, Nat.mul_zero]

/-- Digits of a number that is not zero do not begin with a zero. -/
theorem head?_toDigits {n : Nat} (hn : 0 < n) : (Nat.toDigits 10 n).head? ≠ some '0' := by
  induction n using Nat.strongRecOn with
  | ind n ih =>
    rcases Nat.lt_or_ge n 10 with hlt | hge
    · have hall : ∀ m : Fin 10, 0 < m.val → (Nat.toDigits 10 m).head? ≠ some '0' := by decide
      exact hall ⟨n, hlt⟩ hn
    · have hhead := ih (n / 10) (by omega) (by omega)
      have hne : Nat.toDigits 10 (n / 10) ≠ [] := Nat.toDigits_ne_nil
      obtain ⟨c, ds, hds⟩ := List.exists_cons_of_ne_nil hne
      rw [Nat.toDigits_of_base_le (by decide) hge, hds]
      rw [hds] at hhead
      exact hhead

/-- Digits without a leading zero are the digits of their number. -/
theorem toDigits_ofDigitChars {ds : List Char} (hd : IsDigits ds)
    (hzero : ds = ['0'] ∨ ds.head? ≠ some '0') :
    Nat.toDigits 10 (Nat.ofDigitChars 10 ds 0) = ds := by
  rcases hzero with rfl | hzero
  · rfl
  · obtain ⟨c, es, rfl⟩ := List.exists_cons_of_ne_nil hd.ne_nil
    have hdigit := Char.isDigit_iff_toNat.mp (hd.isDigit c List.mem_cons_self)
    have hc : '0'.toNat < c.toNat :=
      Nat.lt_of_le_of_ne hdigit.1 fun h => hzero (congrArg some (Char.toNat_inj.mp h.symm))
    have hlt := ofDigitChars_lt hd.isDigit 0
    rw [Nat.zero_add, Nat.one_mul] at hlt
    -- The first digit alone is worth a power of ten, so the number has no fewer digits.
    have hge : 10 ^ es.length ≤ Nat.ofDigitChars 10 (c :: es) 0 := by
      rw [Nat.ofDigitChars_cons, Nat.ofDigitChars_eq_ofDigitChars_zero]
      calc 10 ^ es.length = 10 ^ es.length * 1 := (Nat.mul_one _).symm
        _ ≤ 10 ^ es.length * (10 * 0 + (c.toNat - '0'.toNat)) := Nat.mul_le_mul_left _ (by omega)
        _ ≤ _ := Nat.le_add_right _ _
    have hlen : (Nat.toDigits 10 (Nat.ofDigitChars 10 (c :: es) 0)).length = (c :: es).length := by
      refine Nat.le_antisymm ((Nat.length_toDigits_le_iff (by decide) (Nat.succ_pos _)).mpr hlt) ?_
      rcases Nat.eq_zero_or_pos es.length with hnil | hpos
      · rw [List.length_cons, hnil]
        exact Nat.length_toDigits_pos
      · exact Nat.lt_of_not_le fun hle =>
          Nat.not_lt.mpr hge ((Nat.length_toDigits_le_iff (by decide) hpos).mp hle)
    exact eq_of_ofDigitChars_eq (isDigits_toDigits _).isDigit hd.isDigit hlen
      Nat.ofDigitChars_ten_toDigits

end LiteralForm
