/-
Maps as lists of entries.

An entry is a value under a key.  A list of entries whose keys are distinct is a map that keeps the
order in which its keys came.

* `find?` gives the value under a key, which is the value of the entry with it (`find?_of_mem`);
* `replace` changes the value under a key at its place, so the keys stay (`map_fst_replace`); the
  keys are also distinct if a new one goes behind the others (`nodup_append_entry`).
-/

namespace LiteralForm.Entries

variable {κ α : Type} {key : κ} {v : α} {es : List (κ × α)}

theorem nodup_append_entry (hkeys : (es.map Prod.fst).Nodup) (hnew : key ∉ es.map Prod.fst)
    (v : α) : ((es ++ [(key, v)]).map Prod.fst).Nodup := by
  rw [List.map_append, List.nodup_append]
  refine ⟨hkeys, by simp, fun a ha b hb hab => hnew ?_⟩
  obtain rfl : a = key := hab.trans (List.mem_singleton.mp hb)
  exact ha

variable [DecidableEq κ]

/-- The value under a key. -/
def find? (key : κ) (es : List (κ × α)) : Option α :=
  (es.find? fun e => e.1 == key).map Prod.snd

/-- The entries with a new value under a key that they already have. -/
def replace (key : κ) (v : α) (es : List (κ × α)) : List (κ × α) :=
  es.map fun e => if e.1 = key then (key, v) else e

theorem find?_eq_none_iff : find? key es = none ↔ key ∉ es.map Prod.fst := by
  rw [find?, Option.map_eq_none_iff, List.find?_eq_none, List.mem_map, not_exists]
  simp only [beq_iff_eq, not_and]

theorem mem_of_find? (h : find? key es = some v) : (key, v) ∈ es := by
  obtain ⟨e, he, rfl⟩ := Option.map_eq_some_iff.mp h
  have hkey : e.1 = key := by simpa using List.find?_some he
  rw [← hkey]
  exact List.mem_of_find?_eq_some he

theorem find?_cons (key : κ) (e : κ × α) (es : List (κ × α)) :
    find? key (e :: es) = if e.1 = key then some e.2 else find? key es := by
  by_cases he : e.1 = key <;> simp [find?, he]

theorem find?_append (key : κ) (es es' : List (κ × α)) :
    find? key (es ++ es') = (find? key es).or (find? key es') := by
  rw [find?, List.find?_append, Option.map_or]
  rfl

theorem find?_of_mem (hkeys : (es.map Prod.fst).Nodup) (h : (key, v) ∈ es) :
    find? key es = some v := by
  induction es with
  | nil => cases h
  | cons e es ih =>
    rw [List.map_cons, List.nodup_cons] at hkeys
    rw [find?_cons]
    rcases List.mem_cons.mp h with rfl | hes
    · exact if_pos rfl
    · have hne : e.1 ≠ key := fun he => hkeys.1 (he ▸ List.mem_map_of_mem hes)
      rw [if_neg hne, ih hkeys.2 hes]

theorem map_fst_replace (key : κ) (v : α) (es : List (κ × α)) :
    (replace key v es).map Prod.fst = es.map Prod.fst := by
  rw [replace, List.map_map]
  refine List.map_congr_left fun e _ => ?_
  by_cases he : e.1 = key <;> simp [he]

theorem find?_replace (key k : κ) (v : α) (es : List (κ × α)) :
    find? k (replace key v es) = (find? k es).map fun w => if k = key then v else w := by
  have hkey : ((fun e : κ × α => e.1 == k) ∘ fun e => if e.1 = key then (key, v) else e)
      = fun e => e.1 == k := by
    funext e
    by_cases he : e.1 = key <;> simp [he]
  rw [find?, find?, replace, List.find?_map, hkey]
  cases hfind : es.find? (fun e => e.1 == k) with
  | none => rfl
  | some e =>
    have he : e.1 = k := by simpa using List.find?_some hfind
    by_cases hk : k = key <;> simp [he, hk]

end LiteralForm.Entries
