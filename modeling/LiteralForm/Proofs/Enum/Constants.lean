/-
Constants as an ordered map.

* `get?_of_mem`: every entry is found by its name;
* `names_set`, `get?_set`: declaring a name puts it at its old place, or else behind all others,
  and changes the value of no other name;
* `ofList_entries`: constants that are declared one after another stand in that order.
-/
import LiteralForm.Enum.Basic
import Mathlib.Data.List.Nodup

namespace LiteralForm.Constants

theorem eq_of_name_eq {cs : Constants} {c d : String × Int128} (hc : c ∈ cs.entries)
    (hd : d ∈ cs.entries) (h : c.1 = d.1) : c = d :=
  List.inj_on_of_nodup_map cs.distinct hc hd h

theorem get?_of_mem {cs : Constants} {c : String × Int128} (hc : c ∈ cs.entries) :
    cs.get? c.1 = some c.2 :=
  Entries.find?_of_mem cs.distinct hc

/-! ### Declaring a name -/

theorem names_set (cs : Constants) (name : String) (value : Int128) :
    (cs.set name value).names = if name ∈ cs.names then cs.names else cs.names ++ [name] := by
  rw [set]
  split
  · exact Entries.map_fst_replace name value cs.entries
  · exact List.map_append

/-- A name that is not known yet is declared behind all others. -/
theorem entries_set {cs : Constants} {name : String} (h : name ∉ cs.names) (value : Int128) :
    (cs.set name value).entries = cs.entries ++ [(name, value)] := by
  rw [set, dif_neg h]

theorem get?_set (cs : Constants) (name : String) (value : Int128) (n : String) :
    (cs.set name value).get? n = if n = name then some value else cs.get? n := by
  rw [set]
  split
  · next hknown =>
    rw [get?, get?, Entries.find?_replace]
    by_cases hn : n = name
    · obtain ⟨old, hold⟩ : ∃ old, Entries.find? name cs.entries = some old :=
        Option.ne_none_iff_exists'.mp fun hnone => Entries.find?_eq_none_iff.mp hnone hknown
      rw [hn, hold, Option.map_some, if_pos rfl, if_pos rfl]
    · simp only [if_neg hn, Option.map_id']
  · next hnew =>
    rw [get?, get?, Entries.find?_append, Entries.find?_cons]
    by_cases hn : n = name
    · rw [hn, Entries.find?_eq_none_iff.mpr hnew, if_pos rfl, if_pos rfl, Option.none_or]
    · rw [if_neg (Ne.symm hn), if_neg hn]
      exact Option.or_none

/-! ### Declaring one name after another -/

/-- Constants that are declared one after another stand in that order. -/
theorem entries_foldl_set (ds : List (String × Int128)) (cs : Constants)
    (h : (cs.names ++ ds.map Prod.fst).Nodup) :
    (ds.foldl (fun cs d => cs.set d.1 d.2) cs).entries = cs.entries ++ ds := by
  induction ds generalizing cs with
  | nil => rw [List.foldl_nil, List.append_nil]
  | cons d ds ih =>
    have hnew : d.1 ∉ cs.names := by
      intro hmem
      rw [List.nodup_append] at h
      exact h.2.2 d.1 hmem d.1 List.mem_cons_self rfl
    have hset : (cs.set d.1 d.2).entries = cs.entries ++ [d] := entries_set hnew d.2
    have hnames : (cs.set d.1 d.2).names ++ ds.map Prod.fst
        = cs.names ++ (d :: ds).map Prod.fst := by
      rw [names, hset, List.map_append, List.append_assoc]
      rfl
    rw [List.foldl_cons, ih (cs.set d.1 d.2) (hnames ▸ h), hset, List.append_assoc,
      List.singleton_append]

theorem ofList_entries (cs : Constants) : ofList cs.entries = cs := by
  have hentries : (ofList cs.entries).entries = cs.entries :=
    entries_foldl_set cs.entries empty cs.distinct
  exact (Constants.mk.injEq ..).mpr hentries

end LiteralForm.Constants
