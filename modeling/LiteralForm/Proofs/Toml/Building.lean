/-
How the statements of a document build its top-level table.

* `Toml.Changed`: what a statement does to the entries: one key gets its first value, or the table
  under one key becomes another table;
* `Building.Sound`: the keys are distinct, each entry has its places, and the table that the latest
  header opened is there; `Building.Sound.run` keeps it through all statements;
* `Building.run_kept`: a value that is given once stays, or stays a table;
* `Building.forall_entries_iff`: so a top-level table without tables in it consists of lines that
  give undotted keys a value, under no header.

Design notes: below the top level nothing is said of the tables.  So no induction on a path of keys
is needed: the first key of a path alone decides which entry changes.
-/
import LiteralForm.Toml.Document
import Mathlib.Data.List.Nodup

namespace LiteralForm.Toml

/-- A table or the tables of one name. -/
inductive IsTable : Toml → Prop
  | table (origin : Origin) (entries : Entries) : IsTable (.table origin entries)
  | tables (elements : List Entries) : IsTable (.tables elements)

open LiteralForm.Entries

variable {key k : String} {v w : Toml} {es es' : Entries}

/-! ### Changes at one key -/

/-- The entries differ at one key: it is a new one, whose value is as demanded, or the table under
it is replaced by another one. -/
inductive Changed (P : Toml → Prop) (key : String) (es : Entries) : Entries → Prop
  | added {v : Toml} (hnew : find? key es = none) (hv : P v) : Changed P key es (es ++ [(key, v)])
  | grown {v w : Toml} (h : find? key es = some v) (hv : v.IsTable) (hw : w.IsTable) :
    Changed P key es (replace key w es)

theorem define_singleton (h : define v [key] es = some es') :
    find? key es = none ∧ es' = es ++ [(key, v)] := by
  rw [define] at h
  split at h
  · cases h
  · next hnew => exact ⟨Option.not_isSome_iff_eq_none.mp hnew, (Option.some.inj h).symm⟩

theorem changed_define {path : List String} (h : define v (key :: path) es = some es') :
    Changed (fun w => path = [] ∧ w = v ∨ w.IsTable) key es es' := by
  cases path with
  | nil =>
    obtain ⟨hnew, rfl⟩ := define_singleton h
    exact .added hnew (.inl ⟨rfl, rfl⟩)
  | cons key' path =>
    rw [define] at h
    · split at h
      · next hnew =>
        obtain ⟨inner, -, rfl⟩ := Option.map_eq_some_iff.mp h
        exact .added hnew (.inr (.table _ _))
      · next hold =>
        obtain ⟨inner, -, rfl⟩ := Option.map_eq_some_iff.mp h
        exact .grown hold (.table _ _) (.table _ _)
      · cases h
    · nofun

theorem changed_openLast (h : openLast key es = some es') : Changed IsTable key es es' := by
  rw [openLast] at h
  split at h
  · next hnew =>
    cases h
    exact .added hnew (.table _ _)
  · next hold =>
    cases h
    exact .grown hold (.table _ _) (.table _ _)
  · cases h

theorem changed_appendElement (h : appendElement key es = some es') :
    Changed IsTable key es es' := by
  rw [appendElement] at h
  split at h
  · next hnew =>
    cases h
    exact .added hnew (.tables _)
  · next hold =>
    cases h
    exact .grown hold (.tables _) (.tables _)
  · cases h

theorem changed_defineLast {path : List String} (h : defineLast v path key es = some es') :
    Changed IsTable key es es' := by
  rw [defineLast] at h
  split at h
  · next hold =>
    obtain ⟨inner, -, rfl⟩ := Option.map_eq_some_iff.mp h
    exact .grown hold (.table _ _) (.table _ _)
  · next hold =>
    split at h
    · cases h
    · obtain ⟨last, -, rfl⟩ := Option.map_eq_some_iff.mp h
      exact .grown hold (.tables _) (.tables _)
  · cases h

/-- A change below a path changes the table under the first key of the path. -/
theorem changed_modify {change : String → Entries → Option Entries}
    (hchange : ∀ {k es es'}, change k es = some es' → Changed IsTable k es es')
    {path : List String} (h : modify change (key :: path) es = some es') :
    Changed IsTable key es es' := by
  cases path with
  | nil => exact hchange h
  | cons key' path =>
    rw [modify] at h
    · split at h
      · next hnew =>
        obtain ⟨inner, -, rfl⟩ := Option.map_eq_some_iff.mp h
        exact .added hnew (.table _ _)
      · cases h
      · next hold =>
        obtain ⟨inner, -, rfl⟩ := Option.map_eq_some_iff.mp h
        exact .grown hold (.table _ _) (.table _ _)
      · next hold =>
        split at h
        · cases h
        · obtain ⟨last, -, rfl⟩ := Option.map_eq_some_iff.mp h
          exact .grown hold (.tables _) (.tables _)
      · cases h
    · nofun

namespace Changed

variable {P : Toml → Prop}

theorem imp {Q : Toml → Prop} (h : Changed P key es es') (hPQ : ∀ v, P v → Q v) :
    Changed Q key es es' := by
  cases h with
  | added hnew hv => exact .added hnew (hPQ _ hv)
  | grown h hv hw => exact .grown h hv hw

/-- A new key stands behind the others. -/
theorem map_fst (h : Changed P key es es') :
    es'.map Prod.fst = es.map Prod.fst ++ if (find? key es).isSome then [] else [key] := by
  cases h with
  | added hnew hv => simp [hnew]
  | grown h hv hw => simp [h, map_fst_replace]

/-- No entry is added under a key that is there. -/
theorem length_eq (h : Changed P key es es') (hv : (key, v) ∈ es) : es'.length = es.length := by
  have hsome : (find? key es).isSome = true :=
    Option.isSome_iff_ne_none.mpr fun hnone =>
      find?_eq_none_iff.mp hnone (List.mem_map_of_mem hv)
  have hlength := congrArg List.length h.map_fst
  rwa [hsome, if_pos rfl, List.append_nil, List.length_map, List.length_map] at hlength

theorem nodup (h : Changed P key es es') (hkeys : (es.map Prod.fst).Nodup) :
    (es'.map Prod.fst).Nodup := by
  cases h with
  | added hnew hv => exact nodup_append_entry hkeys (find?_eq_none_iff.mp hnew) _
  | grown h hv hw => rwa [map_fst_replace]

/-- The key that changes has a value, which is a table or the one demanded. -/
theorem exists_mem (h : Changed P key es es') : ∃ v, (key, v) ∈ es' ∧ (P v ∨ v.IsTable) := by
  cases h with
  | @added v hnew hv =>
    exact ⟨v, List.mem_append_right _ (List.mem_singleton_self _), .inl hv⟩
  | @grown v w h hv hw =>
    exact ⟨w, List.mem_map.mpr ⟨(key, v), mem_of_find? h, if_pos rfl⟩, .inr hw⟩

/-- A value stays, or stays a table. -/
theorem kept (h : Changed P key es es') (hkeys : (es.map Prod.fst).Nodup) (hv : (k, v) ∈ es) :
    ∃ w, (k, w) ∈ es' ∧ (w = v ∨ v.IsTable ∧ w.IsTable) := by
  cases h with
  | added hnew _ => exact ⟨v, List.mem_append_left _ hv, .inl rfl⟩
  | @grown u w h hu hw =>
    by_cases hk : k = key
    · subst hk
      obtain rfl := Option.some.inj ((find?_of_mem hkeys hv).symm.trans h)
      exact ⟨w, List.mem_map.mpr ⟨(k, v), hv, if_pos rfl⟩, .inr ⟨hu, hw⟩⟩
    · exact ⟨v, List.mem_map.mpr ⟨(k, v), hv, if_neg hk⟩, .inl rfl⟩

end Changed

/-! ### Statements -/

/-- The key and the value of a line with an undotted key. -/
def Statement.setting? : Statement → Option (String × Toml)
  | .entry key _ [] v _ => some (key, v)
  | .entry .. | .header .. | .element .. => none

namespace Building

variable {b b' : Building} {st : Statement} {sts : List Statement}

/-- The top-level key that a statement is about. -/
def topKey (b : Building) : Statement → String
  | .entry key .. => b.header.headD key
  | .header key .. | .element key .. => key

/-- A statement changes the entry of its top-level key, which is a table afterwards unless the
statement is a line with that key. -/
theorem step_changed (h : b.step st = some b') :
    Changed (fun w => st.setting? = some (b.topKey st, w) ∨ w.IsTable) (b.topKey st)
      b.entries b'.entries := by
  cases st with
  | entry key keySpan more v span =>
    obtain ⟨es, hes, rfl⟩ := Option.map_eq_some_iff.mp h
    cases hheader : b.header with
    | nil =>
      rw [hheader, defineAt] at hes
      rw [topKey, hheader]
      refine (changed_define hes).imp fun w hw => hw.imp_left ?_
      rintro ⟨rfl, rfl⟩
      rfl
    | cons k path =>
      rw [hheader, defineAt] at hes
      · rw [topKey, hheader]
        exact (changed_modify changed_defineLast hes).imp fun w hw => .inr hw
      · nofun
  | header key keySpan more span =>
    obtain ⟨es, hes, rfl⟩ := Option.map_eq_some_iff.mp h
    exact (changed_modify changed_openLast hes).imp fun w hw => .inr hw
  | element key keySpan more span =>
    obtain ⟨es, hes, rfl⟩ := Option.map_eq_some_iff.mp h
    exact (changed_modify changed_appendElement hes).imp fun w hw => .inr hw

/-- The keys are distinct, each entry has its places, and the table that the latest header opened is
there. -/
structure Sound (b : Building) : Prop where
  keys : (b.entries.map Prod.fst).Nodup
  places : b.places.length = b.entries.length
  header : ∀ key ∈ b.header.head?, ∃ v, (key, v) ∈ b.entries ∧ v.IsTable

theorem sound_empty : Sound ⟨[], [], []⟩ := ⟨List.nodup_nil, rfl, nofun⟩

theorem length_note (hb : b.Sound) {key : String} {es : Entries} {P : Toml → Prop}
    (h : Changed P key b.entries es) (keySpan span : Text.Span) :
    (b.note key keySpan span).length = es.length := by
  have hlength := congrArg List.length h.map_fst
  rw [List.length_append, List.length_map, List.length_map, ← hb.places] at hlength
  rw [note, hlength]
  cases (find? key b.entries).isSome <;> simp

/-- A table that a header opens is there afterwards. -/
theorem Sound.opened (hb : b.Sound) {key : String} {es : Entries}
    (h : Changed IsTable key b.entries es) (more : List String) (keySpan span : Text.Span) :
    Sound ⟨key :: more, es, b.note key keySpan span⟩ := by
  refine ⟨h.nodup hb.keys, length_note hb h keySpan span, ?_⟩
  rintro k ⟨⟩
  obtain ⟨w, hw, htable⟩ := h.exists_mem
  exact ⟨w, hw, htable.elim id id⟩

theorem Sound.step (hb : b.Sound) (h : b.step st = some b') : b'.Sound := by
  cases st with
  | entry key keySpan more v span =>
    have hchanged := step_changed h
    obtain ⟨es, hes, rfl⟩ := Option.map_eq_some_iff.mp h
    refine ⟨hchanged.nodup hb.keys, ?_, ?_⟩
    · dsimp only
      cases hheader : b.header with
      | nil =>
        rw [topKey, hheader] at hchanged
        exact length_note hb hchanged _ _
      | cons k path =>
        obtain ⟨v, hv, -⟩ := hb.header k (by rw [hheader]; rfl)
        rw [topKey, hheader] at hchanged
        exact hb.places.trans (hchanged.length_eq hv).symm
    · intro k hk
      obtain ⟨v, hv, htable⟩ := hb.header k hk
      obtain ⟨w, hw, rfl | ⟨-, hwtable⟩⟩ := hchanged.kept hb.keys hv
      · exact ⟨w, hw, htable⟩
      · exact ⟨w, hw, hwtable⟩
  | header key keySpan more span =>
    obtain ⟨es, hes, rfl⟩ := Option.map_eq_some_iff.mp h
    exact hb.opened (changed_modify changed_openLast hes) _ _ _
  | element key keySpan more span =>
    obtain ⟨es, hes, rfl⟩ := Option.map_eq_some_iff.mp h
    exact hb.opened (changed_modify changed_appendElement hes) _ _ _

/-! ### Runs -/

theorem Sound.run (hb : b.Sound) (h : b.run sts = some b') : b'.Sound := by
  induction sts generalizing b with
  | nil =>
    cases h
    exact hb
  | cons st sts ih =>
    obtain ⟨b₁, hstep, hrun⟩ := Option.bind_eq_some_iff.mp h
    exact ih (hb.step hstep) hrun

/-- A value that is given once stays, or stays a table. -/
theorem run_kept (hb : b.Sound) (h : b.run sts = some b') (hv : (k, v) ∈ b.entries) :
    ∃ w, (k, w) ∈ b'.entries ∧ (w = v ∨ v.IsTable ∧ w.IsTable) := by
  induction sts generalizing b v with
  | nil =>
    cases h
    exact ⟨v, hv, .inl rfl⟩
  | cons st sts ih =>
    obtain ⟨b₁, hstep, hrun⟩ := Option.bind_eq_some_iff.mp h
    obtain ⟨u, hu, hkept⟩ := (step_changed hstep).kept hb.keys hv
    obtain ⟨w, hw, hkept'⟩ := ih (hb.step hstep) hrun hu
    refine ⟨w, hw, ?_⟩
    rcases hkept with rfl | ⟨hvtable, hutable⟩
    · exact hkept'
    · rcases hkept' with rfl | ⟨-, hwtable⟩
      · exact .inr ⟨hvtable, hutable⟩
      · exact .inr ⟨hvtable, hwtable⟩

/-- If no entry of a document is a table, all its statements are lines with undotted keys, and
their values are found in the entries. -/
theorem exists_setting_of_mem (hb : b.Sound) (h : b.run sts = some b')
    (hplain : ∀ e ∈ b'.entries, ¬e.2.IsTable) (hst : st ∈ sts) :
    ∃ e, st.setting? = some e ∧ e ∈ b'.entries := by
  induction sts generalizing b with
  | nil => cases hst
  | cons st' sts ih =>
    obtain ⟨b₁, hstep, hrun⟩ := Option.bind_eq_some_iff.mp h
    rcases List.mem_cons.mp hst with rfl | hst
    · obtain ⟨v, hv, hset⟩ := (step_changed hstep).exists_mem
      obtain ⟨w, hw, rfl | ⟨-, htable⟩⟩ := run_kept (hb.step hstep) hrun hv
      · rcases hset with (hset | htable) | htable
        · exact ⟨_, hset, hw⟩
        · exact absurd htable (hplain _ hw)
        · exact absurd htable (hplain _ hw)
      · exact absurd htable (hplain _ hw)
    · exact ih (hb.step hstep) hrun hst

theorem step_line {key : String} {v : Toml} (hheader : b.header = [])
    (hset : st.setting? = some (key, v)) (h : b.step st = some b') :
    b'.header = [] ∧ b'.entries = b.entries ++ [(key, v)] := by
  cases st with
  | entry _ keySpan more _ span =>
    cases more with
    | nil =>
      cases hset
      obtain ⟨es, hes, rfl⟩ := Option.map_eq_some_iff.mp h
      rw [hheader, defineAt] at hes
      exact ⟨hheader, (define_singleton hes).2⟩
    | cons => cases hset
  | header | element => cases hset

/-- Lines with undotted keys, under no header, are the entries in the order of the text. -/
theorem entries_of_run_lines (hheader : b.header = []) (h : b.run sts = some b')
    (hlines : ∀ st ∈ sts, st.setting?.isSome = true) :
    b'.entries = b.entries ++ sts.filterMap Statement.setting? := by
  induction sts generalizing b with
  | nil =>
    cases h
    exact (List.append_nil _).symm
  | cons st sts ih =>
    obtain ⟨b₁, hstep, hrun⟩ := Option.bind_eq_some_iff.mp h
    rw [List.forall_mem_cons] at hlines
    obtain ⟨⟨key, v⟩, hset⟩ := Option.isSome_iff_exists.mp hlines.1
    obtain ⟨hheader₁, hentries⟩ := step_line hheader hset hstep
    rw [ih hheader₁ hrun hlines.2, hentries, List.filterMap_cons_some hset, List.append_assoc]
    rfl

/-- Entries of a kind that tables are not of come from lines alone: each statement gives its value to
an undotted key, and there is no header. -/
theorem forall_entries_iff {S : String → Toml → Prop} (hS : ∀ key v, S key v → ¬v.IsTable)
    (h : run ⟨[], [], []⟩ sts = some b) :
    (∀ e ∈ b.entries, S e.1 e.2) ↔ ∀ st ∈ sts, ∃ e, st.setting? = some e ∧ S e.1 e.2 := by
  constructor
  · intro hentries st hst
    obtain ⟨e, hset, he⟩ := exists_setting_of_mem sound_empty h
      (fun e he => hS _ _ (hentries e he)) hst
    exact ⟨e, hset, hentries e he⟩
  · intro hlines e he
    have hsome : ∀ st ∈ sts, st.setting?.isSome = true := by
      intro st hst
      obtain ⟨e, hset, -⟩ := hlines st hst
      exact Option.isSome_of_eq_some hset
    rw [entries_of_run_lines rfl h hsome] at he
    obtain ⟨st, hst, hset⟩ := List.mem_filterMap.mp he
    obtain ⟨e', hset', hsetting⟩ := hlines st hst
    cases hset.symm.trans hset'
    exact hsetting

end Building

/-! ### Documents -/

/-- The top-level table of a document, without the places in the text. -/
def Document.table (d : Document) : Entries := d.map fun e => (e.key, e.value)

/-- The statements of a text, in its order. -/
def statements? (s : List Char) : Option (List Statement) :=
  readStatements (Text.byteLength s) (s.length + 1) (dropMark s)

theorem table_withPlaces {places : List (Text.Span × Text.Span)}
    (h : places.length = es.length) : Document.table (withPlaces es places) = es := by
  induction es generalizing places with
  | nil => cases places <;> rfl
  | cons e es ih =>
    obtain ⟨p, places, rfl⟩ := List.exists_cons_of_length_eq_add_one h
    exact congrArg (e :: ·) (ih (Nat.succ.inj h))

/-- A document is built from the statements of its text. -/
theorem exists_run_of_parse {s : List Char} {d : Document} (h : Document.parse s = some d) :
    ∃ sts b, statements? s = some sts ∧ Building.run ⟨[], [], []⟩ sts = some b ∧ b.Sound ∧
      d.table = b.entries := by
  obtain ⟨sts, hsts, hbuild⟩ := Option.bind_eq_some_iff.mp h
  obtain ⟨b, hrun, rfl⟩ := Option.map_eq_some_iff.mp hbuild
  have hb := Building.sound_empty.run hrun
  exact ⟨sts, b, hsts, hrun, hb, table_withPlaces hb.places⟩

end LiteralForm.Toml
