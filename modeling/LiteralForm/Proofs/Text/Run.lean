/-
Texts that are put together from parts.

* `toList_intercalate_cons`: parts are joined by a separator in front of each but the first;
* `takeWhile_run`, `dropWhile_run`: a reader finds where a run ends;
* `append_inj_of_run`, `append_inj_of_run_end`: two equal texts that begin, or end, with runs of
  one class of characters do so with the same run.

A run is a stretch of characters of one class, next to something that is not of the class.
-/

namespace LiteralForm.Text

theorem toList_intercalate_cons (separator s : String) (ss : List String) :
    (String.intercalate separator (s :: ss)).toList
      = s.toList ++ ss.flatMap fun r => separator.toList ++ r.toList := by
  induction ss generalizing s with
  | nil => simp
  | cons r ss ih =>
    rw [String.intercalate_cons_cons, String.toList_append, String.toList_append, ih,
      List.flatMap_cons, List.append_assoc, List.append_assoc]

section Reading

variable {α : Type} {p : α → Bool} {run rest : List α}

theorem takeWhile_run (hrun : ∀ c ∈ run, p c = true) (hrest : ∀ c ∈ rest.head?, p c = false) :
    (run ++ rest).takeWhile p = run := by
  rw [List.takeWhile_append_of_pos hrun]
  cases rest with
  | nil => simp
  | cons c rest => simp [hrest c rfl]

theorem dropWhile_run (hrun : ∀ c ∈ run, p c = true) (hrest : ∀ c ∈ rest.head?, p c = false) :
    (run ++ rest).dropWhile p = rest := by
  rw [List.dropWhile_append_of_pos hrun]
  cases rest with
  | nil => rfl
  | cons c rest => simp [hrest c rfl]

end Reading

variable {α : Type} {p : α → Prop} {a b x y : List α}

theorem append_inj_of_run (ha : ∀ c ∈ a, p c) (hb : ∀ c ∈ b, p c) (hx : ∀ c ∈ x.head?, ¬p c)
    (hy : ∀ c ∈ y.head?, ¬p c) (h : a ++ x = b ++ y) : a = b ∧ x = y := by
  induction a generalizing b with
  | nil =>
    cases b with
    | nil => exact ⟨rfl, h⟩
    | cons d b =>
      have hhead : x.head? = some d := by rw [← List.nil_append x, h]; rfl
      exact absurd (hb d List.mem_cons_self) (hx d hhead)
  | cons c a ih =>
    cases b with
    | nil =>
      have hhead : y.head? = some c := by rw [← List.nil_append y, ← h]; rfl
      exact absurd (ha c List.mem_cons_self) (hy c hhead)
    | cons d b =>
      obtain ⟨rfl, htail⟩ := List.cons.inj h
      have ha' : ∀ e ∈ a, p e := fun e he => ha e (List.mem_cons_of_mem c he)
      have hb' : ∀ e ∈ b, p e := fun e he => hb e (List.mem_cons_of_mem c he)
      obtain ⟨rfl, hxy⟩ := ih ha' hb' htail
      exact ⟨rfl, hxy⟩

theorem append_inj_of_run_end (ha : ∀ c ∈ a, p c) (hb : ∀ c ∈ b, p c)
    (hx : ∀ c ∈ x.getLast?, ¬p c) (hy : ∀ c ∈ y.getLast?, ¬p c) (h : x ++ a = y ++ b) :
    x = y ∧ a = b := by
  have hrev : a.reverse ++ x.reverse = b.reverse ++ y.reverse := by
    rw [← List.reverse_append, h, List.reverse_append]
  obtain ⟨hab, hxy⟩ := append_inj_of_run (p := p)
    (fun c hc => ha c (List.mem_reverse.mp hc)) (fun c hc => hb c (List.mem_reverse.mp hc))
    (fun c hc => hx c (by rwa [List.head?_reverse] at hc))
    (fun c hc => hy c (by rwa [List.head?_reverse] at hc)) hrev
  exact ⟨List.reverse_inj.mp hxy, List.reverse_inj.mp hab⟩

end LiteralForm.Text
