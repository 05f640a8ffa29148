/-
Which documents are options.

* `Options.IsSetting`: the two known keys, each with the values that it can have;
* `Options.Describes`: options that hold the values of a table, and those of other options where the
  table gives none;
* `Options.ofDocument_eq_ok_iff`: a document whose keys are distinct is read exactly if its entries
  are settings, and then as the options that they describe;
* `Options.readAs_of_parse`: hence all that reading a text depends on, in terms of its document
  and of the lines that make up the document.

Design notes: reading takes the defaults and changes them entry by entry, so the options from before
an entry stand for the defaults in the step (`Holds.cons_self`, `Holds.cons_of_ne`).
-/
import LiteralForm.Options.Document
import LiteralForm.Proofs.Toml.Building

namespace LiteralForm.Options

open Toml

/-! ### Settings -/

/-- A known key with a value that it can have. -/
inductive IsSetting : String → Toml → Prop
  | fullTypeNames (b : Bool) : IsSetting fullTypeNamesKey (.boolean b)
  | verbatimThreshold {n : Int} (hmin : 0 ≤ n) (hmax : n < UInt64.size) :
    IsSetting verbatimThresholdKey (.integer n)

theorem IsSetting.not_isTable {key : String} {v : Toml} (h : IsSetting key v) : ¬v.IsTable := by
  cases h <;> nofun

theorem inRange_uint64_iff {n : Int} : IntKind.uint64.InRange n ↔ 0 ≤ n ∧ n < UInt64.size := by
  rw [IntKind.InRange, show IntKind.uint64.minValue = 0 from rfl,
    show IntKind.uint64.maxValue = UInt64.size - 1 from rfl]
  omega

theorem toNat_ofNat_toNat {n : Int} (hmin : 0 ≤ n) (hmax : n < UInt64.size) :
    ((UInt64.ofNat n.toNat).toNat : Int) = n := by
  rw [UInt64.toNat_ofNat_of_lt' (by omega), Int.toNat_of_nonneg hmin]

theorem verbatimThresholdKey_ne : verbatimThresholdKey ≠ fullTypeNamesKey := by decide

/-- What taking an entry can come to. -/
theorem takeEntry_cases {o o' : Options} {e : Toml.Entry} (h : takeEntry o e = .ok o') :
    (∃ b, e.key = fullTypeNamesKey ∧ e.value = .boolean b ∧ o' = { o with fullTypeNames := b }) ∨
    ∃ n : Int, e.key = verbatimThresholdKey ∧ e.value = .integer n ∧ 0 ≤ n ∧ n < UInt64.size ∧
      o' = { o with verbatimThreshold := .ofNat n.toNat } := by
  rw [takeEntry] at h
  split at h
  · next hkey =>
    split at h
    · next b hvalue => exact .inl ⟨b, hkey, hvalue, (Except.ok.inj h).symm⟩
    · cases h
  · split at h
    · next hkey =>
      split at h
      · next n hvalue =>
        split at h
        · next hrange =>
          obtain ⟨hmin, hmax⟩ := inRange_uint64_iff.mp hrange
          exact .inr ⟨n, hkey, hvalue, hmin, hmax, (Except.ok.inj h).symm⟩
        · cases h
      · cases h
    · cases h

theorem exists_takeEntry_eq_ok {o : Options} {e : Toml.Entry} (h : IsSetting e.key e.value) :
    ∃ o', takeEntry o e = .ok o' := by
  generalize hkey : e.key = key, hvalue : e.value = v at h
  cases h with
  | fullTypeNames b =>
    rw [takeEntry, if_pos hkey, hvalue]
    exact ⟨_, rfl⟩
  | verbatimThreshold hmin hmax =>
    rw [takeEntry, hkey, if_neg verbatimThresholdKey_ne, if_pos rfl, hvalue]
    exact ⟨_, if_pos (inRange_uint64_iff.mpr ⟨hmin, hmax⟩)⟩

/-! ### The options that a table describes -/

variable {α : Type}

/-- A setting has the value that the entries give to its key, and another one if they give none. -/
structure Holds (es : Entries) (key : String) (write : α → Toml) (fallback x : α) : Prop where
  given : ∀ v, (key, v) ∈ es → v = write x
  absent : (∀ v, (key, v) ∉ es) → x = fallback

namespace Holds

variable {es : Entries} {key k : String} {write : α → Toml} {fallback x y : α}

theorem nil : Holds [] key write x x := ⟨nofun, fun _ => rfl⟩

/-- A key that does not come again has its value from here on. -/
theorem cons_self (h : Holds es key write y x) (hnew : key ∉ es.map Prod.fst) (fallback : α) :
    Holds ((key, write y) :: es) key write fallback x := by
  have hnotMem : ∀ v, (key, v) ∉ es := fun v hv => hnew (List.mem_map_of_mem hv)
  have hx := h.absent hnotMem
  refine ⟨?_, fun hnone => absurd List.mem_cons_self (hnone _)⟩
  intro v hv
  rcases List.mem_cons.mp hv with heq | hv
  · cases heq
    rw [hx]
  · exact absurd hv (hnotMem v)

theorem cons_of_ne (h : Holds es key write fallback x) (hk : k ≠ key) (v : Toml) :
    Holds ((k, v) :: es) key write fallback x := by
  constructor
  · intro w hw
    rcases List.mem_cons.mp hw with heq | hw
    · cases heq
      exact absurd rfl hk
    · exact h.given w hw
  · exact fun hnone => h.absent fun w hw => hnone w (List.mem_cons_of_mem _ hw)

theorem unique (hx : Holds es key write fallback x) (hy : Holds es key write fallback y)
    (hwrite : ∀ x y, write x = write y → x = y) : x = y := by
  by_cases hsome : ∃ v, (key, v) ∈ es
  · obtain ⟨v, hv⟩ := hsome
    exact hwrite x y ((hx.given v hv).symm.trans (hy.given v hv))
  · rw [not_exists] at hsome
    rw [hx.absent hsome, hy.absent hsome]

theorem perm {es' : Entries} (h : Holds es key write fallback x) (hperm : es.Perm es') :
    Holds es' key write fallback x where
  given v hv := h.given v (hperm.mem_iff.mpr hv)
  absent hnone := h.absent fun v hv => hnone v (hperm.mem_iff.mp hv)

end Holds

/-- The options hold the values that a table gives, and those of other options where it gives
none. -/
structure Describes (fallback : Options) (es : Entries) (o : Options) : Prop where
  fullTypeNames :
    Holds es fullTypeNamesKey .boolean fallback.fullTypeNames o.fullTypeNames
  verbatimThreshold :
    Holds es verbatimThresholdKey (fun t : UInt64 => .integer t.toNat)
      fallback.verbatimThreshold o.verbatimThreshold

theorem Describes.perm {fallback o : Options} {es es' : Entries} (h : Describes fallback es o)
    (hperm : es.Perm es') : Describes fallback es' o :=
  ⟨h.fullTypeNames.perm hperm, h.verbatimThreshold.perm hperm⟩

theorem Describes.unique {fallback o o' : Options} {es : Entries} (h : Describes fallback es o)
    (h' : Describes fallback es o') : o = o' := by
  have hnames := h.fullTypeNames.unique h'.fullTypeNames fun x y => Toml.boolean.inj
  have hthreshold := h.verbatimThreshold.unique h'.verbatimThreshold fun x y heq =>
    UInt64.toNat_inj.mp (Int.ofNat.inj (Toml.integer.inj heq))
  cases o
  cases o'
  congr

/-! ### Documents -/

/-- Options that entries with distinct keys are taken into, one after another. -/
theorem describes_of_foldlM {base o : Options} {d : Document}
    (hkeys : (d.table.map Prod.fst).Nodup) (h : d.foldlM takeEntry base = .ok o) :
    (∀ e ∈ d.table, IsSetting e.1 e.2) ∧ Describes base d.table o := by
  induction d generalizing base with
  | nil =>
    cases h
    exact ⟨nofun, .nil, .nil⟩
  | cons e d ih =>
    rw [List.foldlM_cons] at h
    cases htake : takeEntry base e with
    | error place =>
      rw [htake] at h
      cases h
    | ok o₁ =>
      rw [htake] at h
      obtain ⟨hnew, hkeys⟩ := List.nodup_cons.mp hkeys
      obtain ⟨hsettings, hnames, hthreshold⟩ := ih hkeys h
      obtain ⟨key, keySpan, v, span⟩ := e
      obtain ⟨b, rfl, rfl, rfl⟩ | ⟨n, rfl, rfl, hmin, hmax, rfl⟩ := takeEntry_cases htake
      · exact ⟨List.forall_mem_cons.mpr ⟨.fullTypeNames b, hsettings⟩, hnames.cons_self hnew _,
          hthreshold.cons_of_ne verbatimThresholdKey_ne.symm _⟩
      · refine ⟨List.forall_mem_cons.mpr ⟨.verbatimThreshold hmin hmax, hsettings⟩,
          hnames.cons_of_ne verbatimThresholdKey_ne _, ?_⟩
        have hself := hthreshold.cons_self hnew base.verbatimThreshold
        rwa [toNat_ofNat_toNat hmin hmax] at hself

theorem exists_foldlM_eq_ok {d : Document} (h : ∀ e ∈ d.table, IsSetting e.1 e.2)
    (base : Options) : ∃ o, d.foldlM takeEntry base = .ok o := by
  induction d generalizing base with
  | nil => exact ⟨base, rfl⟩
  | cons e d ih =>
    obtain ⟨hsetting, hrest⟩ := List.forall_mem_cons.mp h
    obtain ⟨o₁, htake⟩ := exists_takeEntry_eq_ok (o := base) hsetting
    rw [List.foldlM_cons, htake]
    exact ih hrest o₁

/-- A document with distinct keys is read exactly if its entries are settings, and then as the
options that they describe. -/
theorem ofDocument_eq_ok_iff {d : Document} (hkeys : (d.table.map Prod.fst).Nodup) {o : Options} :
    ofDocument d = .ok o
      ↔ (∀ e ∈ d.table, IsSetting e.1 e.2) ∧ Describes .default d.table o := by
  constructor
  · exact describes_of_foldlM hkeys
  · rintro ⟨hsettings, ho⟩
    obtain ⟨o', ho'⟩ := exists_foldlM_eq_ok hsettings .default
    rw [ho.unique (describes_of_foldlM hkeys ho').2]
    exact ho'

/-! ### Texts -/

section Reading

variable {documentName text : String} {d : Document} (h : Document.parse text.toList = some d)
include h

theorem parse_eq_ok_iff {o : Options} : parse documentName text = .ok o ↔ ofDocument d = .ok o := by
  rw [parse, h]
  dsimp only
  split
  · next heq => rw [heq, Except.ok.injEq, Except.ok.injEq]
  · next heq =>
    rw [heq]
    exact ⟨nofun, nofun⟩

theorem parse_eq_error {place : Text.Span} (hplace : ofDocument d = .error place) :
    parse documentName text = .error (.invalid documentName (some place)) := by
  rw [parse, h]
  dsimp only
  rw [hplace]

end Reading

/-- What reading a text that is a document depends on. -/
structure ReadAs (documentName text : String) (d : Document) : Prop where
  distinct : (d.table.map Prod.fst).Nodup
  /-- Every key is known, and its value is of the type and in the range of the key. -/
  accepted_iff : (∃ o, parse documentName text = .ok o) ↔ ∀ e ∈ d.table, IsSetting e.1 e.2
  describes : ∀ o, parse documentName text = .ok o → Describes ⟨false, 3⟩ d.table o
  /-- One entry that is no setting is enough for an error and no options. -/
  refused : (∃ e ∈ d.table, ¬IsSetting e.1 e.2) →
    ∃ place, parse documentName text = .error (.invalid documentName (some place))
  /-- The order of the entries does not matter. -/
  unordered : ∀ (text' : String) (d' : Document), Document.parse text'.toList = some d' →
    d'.table.Perm d.table → ∀ o,
      (parse documentName text' = .ok o ↔ parse documentName text = .ok o)
  /-- Settings are lines with undotted keys, and there is no header. -/
  lines : ∀ sts, statements? text.toList = some sts → ((∀ e ∈ d.table, IsSetting e.1 e.2)
    ↔ ∀ st ∈ sts, ∃ e, st.setting? = some e ∧ IsSetting e.1 e.2)

theorem readAs_of_parse (documentName : String) {text : String} {d : Document}
    (h : Document.parse text.toList = some d) : ReadAs documentName text d := by
  obtain ⟨sts, b, hsts, hrun, hb, htable⟩ := exists_run_of_parse h
  have hkeys : (d.table.map Prod.fst).Nodup := htable ▸ hb.keys
  have hok : ∀ o, parse documentName text = .ok o
      ↔ (∀ e ∈ d.table, IsSetting e.1 e.2) ∧ Describes .default d.table o :=
    fun o => (parse_eq_ok_iff h).trans (ofDocument_eq_ok_iff hkeys)
  constructor
  case distinct => exact hkeys
  case accepted_iff =>
    constructor
    · rintro ⟨o, ho⟩
      exact ((hok o).mp ho).1
    · intro hsettings
      obtain ⟨o, ho⟩ := exists_foldlM_eq_ok hsettings .default
      exact ⟨o, (parse_eq_ok_iff h).mpr ho⟩
  case describes => exact fun o ho => ((hok o).mp ho).2
  case refused =>
    rintro ⟨e, he, hsetting⟩
    cases hd : ofDocument d with
    | ok o => exact absurd (((ofDocument_eq_ok_iff hkeys).mp hd).1 e he) hsetting
    | error place => exact ⟨place, parse_eq_error h hd⟩
  case unordered =>
    intro text' d' h' hperm o
    have hkeys' : (d'.table.map Prod.fst).Nodup := (hperm.map Prod.fst).nodup_iff.mpr hkeys
    rw [hok, parse_eq_ok_iff h', ofDocument_eq_ok_iff hkeys']
    constructor
    · rintro ⟨hsettings, ho⟩
      exact ⟨fun e he => hsettings e (hperm.mem_iff.mpr he), ho.perm hperm⟩
    · rintro ⟨hsettings, ho⟩
      exact ⟨fun e he => hsettings e (hperm.mem_iff.mp he), ho.perm hperm.symm⟩
  case lines =>
    intro sts' hsts'
    cases hsts.symm.trans hsts'
    rw [htable]
    exact Building.forall_entries_iff (fun _ _ => IsSetting.not_isTable) hrun

/-- Both settings with quoted keys, in another order than they are written by default, with a comment
and an underscore in the number. -/
def quotedText : String :=
  "\"verbatim-threshold\" = 1_000 # escapes\r\n\r\n'full-type-names' = true"

/-- A setting beside a header that makes the other one a table. -/
def headerText : String := "verbatim-threshold = 3\n[full-type-names]\n"

theorem readAs_of_parse_quoted :
    (∃ d, Document.parse quotedText.toList = some d ∧ ReadAs "app.toml" quotedText d ∧
      parse "app.toml" quotedText = .ok ⟨true, 1000⟩) ∧
    ∃ d, Document.parse headerText.toList = some d ∧ ReadAs "app.toml" headerText d ∧
      parse "app.toml" headerText = .error (.invalid "app.toml" (some ⟨23, 17⟩)) := by
  have hquoted : (Document.parse quotedText.toList).isSome = true := by decide +kernel
  have hheader : (Document.parse headerText.toList).isSome = true := by decide +kernel
  obtain ⟨d, hd⟩ := Option.isSome_iff_exists.mp hquoted
  obtain ⟨d', hd'⟩ := Option.isSome_iff_exists.mp hheader
  exact ⟨⟨d, hd, readAs_of_parse "app.toml" hd, by decide +kernel⟩,
    ⟨d', hd', readAs_of_parse "app.toml" hd', by decide +kernel⟩⟩

end LiteralForm.Options
