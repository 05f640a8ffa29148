/-
Enum literals tell values of one enum apart.

* `EnumForm.render_injective`: a form is read back from its text behind one name of a type;
* `EnumForm.Denotes`: the form stands for the value; a form stands for the values of one pattern
  only (`Denotes.congruent`);
* `literal_eq_iff`: literals are equal exactly for congruent values.

Design notes: the three forms are told apart by the parentheses in front of the name of the type.
As one name stands in all of them, shifting it by the parentheses shows that it would have to
consist of parentheses alone (`typeName_point_ne`), so nothing is asked of that name.  A name of
a constant must not contain the at sign of escaped words or the space of the separator; a closing
parenthesis in it does no harm.
-/
import LiteralForm.Proofs.CSharp.Naming
import LiteralForm.Proofs.Enum.Constants
import LiteralForm.Proofs.Enum.Literal
import LiteralForm.Proofs.Integer.Literal
import LiteralForm.Proofs.Text.Run

namespace LiteralForm

theorem eq_of_map_eq {α β : Type} {f : α → β} {xs ys : List α}
    (hf : ∀ x ∈ xs, ∀ y ∈ ys, f x = f y → x = y) (h : xs.map f = ys.map f) : xs = ys := by
  induction xs generalizing ys with
  | nil => exact (List.map_eq_nil_iff.mp h.symm).symm
  | cons x xs ih =>
    cases ys with
    | nil => cases h
    | cons y ys =>
      obtain ⟨hxy, htail⟩ := List.cons.inj h
      obtain rfl := hf x List.mem_cons_self y List.mem_cons_self hxy
      obtain rfl := ih (fun a ha b hb => hf a (List.mem_cons_of_mem x ha) b
        (List.mem_cons_of_mem x hb)) htail
      rfl

/-! ### The texts of the three forms -/

/-- A name before a point is not the same name behind parentheses. -/
theorem typeName_point_ne (t x y : List Char) (n : Nat) :
    t ++ '.' :: x ≠ List.replicate (n + 1) '(' ++ (t ++ y) := by
  induction t generalizing y with
  | nil =>
    intro h
    rw [List.replicate_succ] at h
    cases h
  | cons c t ih =>
    -- The first character is a parenthesis, so it can go over to the other side.
    intro h
    rw [List.replicate_succ] at h
    obtain ⟨rfl, htail⟩ := List.cons.inj h
    refine ih y (htail.trans ?_)
    rw [List.replicate_succ', List.append_assoc]
    rfl

/-- The members of a type of the given name that follow the first one in a combination. -/
def furtherMembers (typeName : List Char) (ms : List (List Char)) : List Char :=
  ms.flatMap fun m => ' ' :: '|' :: ' ' :: (typeName ++ '.' :: m)

theorem toList_members (t m : String) (ms : List String) :
    (String.intercalate " | " ((m :: ms).map fun m => t ++ "." ++ m)).toList
      = t.toList ++ '.' :: (m.toList ++ furtherMembers t.toList (ms.map String.toList)) := by
  rw [List.map_cons, Text.toList_intercalate_cons, List.flatMap_map, furtherMembers,
    List.flatMap_map]
  simp

/-- A member ends where the separator begins, so the members are read one after another. -/
theorem furtherMembers_injective (t : List Char) {m n : List Char} {ms ns : List (List Char)}
    (hms : ∀ x ∈ m :: ms, ' ' ∉ x) (hns : ∀ x ∈ n :: ns, ' ' ∉ x)
    (h : m ++ furtherMembers t ms = n ++ furtherMembers t ns) : m :: ms = n :: ns := by
  have hrun : ∀ {x : List Char}, ' ' ∉ x → ∀ c ∈ x, c ≠ ' ' := by
    rintro x hx c hc rfl
    exact hx hc
  have hhead : ∀ xs : List (List Char), ∀ c ∈ (furtherMembers t xs).head?, ¬c ≠ ' ' := by
    intro xs c hc
    cases xs with
    | nil => cases hc
    | cons x xs =>
      cases hc
      exact not_not_intro rfl
  induction ms generalizing m n ns with
  | nil =>
    obtain ⟨rfl, htail⟩ := Text.append_inj_of_run (hrun (hms m List.mem_cons_self))
      (hrun (hns n List.mem_cons_self)) (hhead []) (hhead ns) h
    cases ns with
    | nil => rfl
    | cons n' ns => cases htail
  | cons m' ms ih =>
    obtain ⟨rfl, htail⟩ := Text.append_inj_of_run (hrun (hms m List.mem_cons_self))
      (hrun (hns n List.mem_cons_self)) (hhead (m' :: ms)) (hhead ns) h
    cases ns with
    | nil => cases htail
    | cons n' ns =>
      simp only [furtherMembers, List.flatMap_cons, List.cons_append, List.append_assoc,
        List.cons.injEq, true_and, List.append_cancel_left_eq] at htail
      rw [ih (fun x hx => hms x (List.mem_cons_of_mem m hx))
        (fun x hx => hns x (List.mem_cons_of_mem m hx)) htail]

theorem exists_toList_numericCast (t : String) (n : Int) :
    ∃ y, (numericCast t n).toList = '(' :: '(' :: (t.toList ++ y) := by
  unfold numericCast
  split
  · exact ⟨')' :: '(' :: ((toString n).toList ++ [')', ')']), by simp⟩
  · exact ⟨')' :: ((toString n).toList ++ [')']), by simp⟩

theorem numericCast_injective {t : String} {a b : Int} (h : numericCast t a = numericCast t b) :
    a = b := by
  -- A number that is not negative does not begin with a parenthesis.
  have hdigits : ∀ (n : Int) (x y : List Char), (toString n).toList ++ x ≠ '(' :: y := by
    intro n x y he
    have hstart := Integral.startsNumber_toString n x
    rw [he] at hstart
    cases hstart
  have hlist := congrArg String.toList h
  unfold numericCast at h hlist
  split at h <;> split at h
  · exact Integral.toString_injective (by simpa using h)
  · next ha hb =>
    rw [if_pos ha, if_neg hb] at hlist
    exact absurd (by simpa using hlist.symm) (hdigits b [')'] ((toString a).toList ++ [')', ')']))
  · next ha hb =>
    rw [if_neg ha, if_pos hb] at hlist
    exact absurd (by simpa using hlist) (hdigits a [')'] ((toString b).toList ++ [')', ')']))
  · exact Integral.toString_injective (by simpa using h)

namespace EnumForm

/-! ### Forms are read back -/

/-- The names in a form. -/
def names : EnumForm → List String
  | constant name => [name]
  | combination names => names
  | cast _ => []

/-- A form whose names can be told from what stands between them. -/
structure IsReadable (f : EnumForm) : Prop where
  nonempty : f ≠ combination []
  escape : ∀ n ∈ f.names, '@' ∉ n.toList
  separator : ∀ n ∈ f.names, ' ' ∉ n.toList

variable (n : Namer) (t : String)

theorem toList_render_constant (name : String) :
    (render n t (constant name)).toList = t.toList ++ '.' :: (n.member name).toList := by
  simp [render]

theorem toList_render_combination (m : String) (ms : List String) :
    (render n t (combination (m :: ms))).toList
      = '(' :: (t.toList ++ '.' :: ((n.member m).toList ++ furtherMembers t.toList
        (ms.map fun x => (n.member x).toList)) ++ [')']) := by
  have hmembers := toList_members t (n.member m) (ms.map n.member)
  rw [← List.map_cons, List.map_map, List.map_map] at hmembers
  show ("(" ++ String.intercalate " | " ((m :: ms).map ((fun x => t ++ "." ++ x) ∘
    n.member)) ++ ")").toList = _
  rw [String.toList_append, String.toList_append, hmembers]
  rfl

/-- The parentheses in front of the name of the type. -/
def parentheses : EnumForm → Nat
  | constant _ => 0
  | combination _ => 1
  | cast _ => 2

theorem exists_toList_render {f : EnumForm} (hf : f ≠ combination []) :
    ∃ y, (render n t f).toList = List.replicate f.parentheses '(' ++ (t.toList ++ y) ∧
      (f.parentheses < 2 → ∃ x, y = '.' :: x) := by
  match f with
  | constant name => exact ⟨_, toList_render_constant n t name, fun _ => ⟨_, rfl⟩⟩
  | combination [] => exact absurd rfl hf
  | combination (m :: ms) =>
    have htext := toList_render_combination n t m ms
    rw [List.append_assoc, List.cons_append] at htext
    exact ⟨_, htext, fun _ => ⟨_, rfl⟩⟩
  | cast k =>
    obtain ⟨y, hy⟩ := exists_toList_numericCast t k
    exact ⟨y, hy, fun h => absurd h (Nat.lt_irrefl 2)⟩

variable {n t}

theorem not_parentheses_lt {f g : EnumForm} (hf : f ≠ combination []) (hg : g ≠ combination [])
    (h : f.render n t = g.render n t) : ¬f.parentheses < g.parentheses := by
  intro hlt
  obtain ⟨y, hfy, hpoint⟩ := exists_toList_render n t hf
  obtain ⟨z, hgz, -⟩ := exists_toList_render n t hg
  have htwo : g.parentheses ≤ 2 := by cases g <;> simp [parentheses]
  obtain ⟨x, rfl⟩ := hpoint (Nat.lt_of_lt_of_le hlt htwo)
  obtain ⟨d, hd⟩ := Nat.exists_eq_add_of_lt hlt
  rw [h, hgz, hd, Nat.add_assoc, List.replicate_add, List.append_assoc,
    List.append_cancel_left_eq] at hfy
  exact typeName_point_ne t.toList x z d hfy.symm

theorem parentheses_eq {f g : EnumForm} (hf : f ≠ combination []) (hg : g ≠ combination [])
    (h : f.render n t = g.render n t) : f.parentheses = g.parentheses :=
  Nat.le_antisymm (Nat.le_of_not_lt (not_parentheses_lt hg hf h.symm))
    (Nat.le_of_not_lt (not_parentheses_lt hf hg h))

/-- A cast is told from every other form, whatever the namer. -/
theorem render_eq_numericCast_iff {f : EnumForm} (hf : f ≠ combination []) {k : Int} :
    f.render n t = numericCast t k ↔ f = cast k := by
  constructor
  · intro h
    have hparen : f.parentheses = 2 := parentheses_eq (g := cast k) hf nofun h
    cases f with
    | cast j => rw [numericCast_injective h]
    | _ => cases hparen
  · rintro rfl
    rfl

/-! ### Forms in C# -/

variable {full : Bool}

theorem space_notMem_safeName {n : String} (h : ' ' ∉ n.toList) :
    ' ' ∉ (CSharp.naming.safeName n).toList := by
  intro hs
  rcases CSharp.mem_safeName hs with hat | hn
  · cases hat
  · exact h hn

theorem combination_injective {ms ns : List String} (hm : (combination ms).IsReadable)
    (hn : (combination ns).IsReadable) (h : (combination ms).render (CSharp.namer full) t
      = (combination ns).render (CSharp.namer full) t) : ms = ns := by
  have hne : ∀ {xs : List String}, (combination xs).IsReadable → xs ≠ [] := by
    rintro xs hx rfl
    exact hx.nonempty rfl
  have hspace : ∀ xs : List String, (∀ x ∈ xs, ' ' ∉ x.toList) →
      ∀ y ∈ xs.map fun x => (CSharp.naming.safeName x).toList, ' ' ∉ y := by
    intro xs hxs y hy
    obtain ⟨x, hx, rfl⟩ := List.mem_map.mp hy
    exact space_notMem_safeName (hxs x hx)
  obtain ⟨m, ms, rfl⟩ := List.exists_cons_of_ne_nil (hne hm)
  obtain ⟨n, ns, rfl⟩ := List.exists_cons_of_ne_nil (hne hn)
  have hlist := congrArg String.toList h
  rw [toList_render_combination, toList_render_combination, List.cons.injEq,
    List.append_cancel_right_eq, List.append_cancel_left_eq, List.cons.injEq] at hlist
  have hmembers := furtherMembers_injective t.toList (hspace (m :: ms) hm.separator)
    (hspace (n :: ns) hn.separator) hlist.2.2
  refine eq_of_map_eq (f := fun x => (CSharp.naming.safeName x).toList) ?_ hmembers
  intro x hx y hy hxy
  exact CSharp.safeName_injective (hm.escape x hx) (hn.escape y hy) (String.toList_inj.mp hxy)

/-- The text of a form behind the name of a type gives the form back. -/
theorem render_injective {f g : EnumForm} (hf : f.IsReadable) (hg : g.IsReadable)
    (h : f.render (CSharp.namer full) t = g.render (CSharp.namer full) t) : f = g := by
  have hparen := parentheses_eq hf.nonempty hg.nonempty h
  cases f with
  | constant a =>
    cases g with
    | constant b =>
      have hlist := congrArg String.toList h
      rw [toList_render_constant, toList_render_constant, List.append_cancel_left_eq] at hlist
      have hname := String.toList_inj.mp (List.cons.inj hlist).2
      rw [CSharp.safeName_injective (hf.escape a List.mem_cons_self)
        (hg.escape b List.mem_cons_self) hname]
    | _ => cases hparen
  | combination ms =>
    cases g with
    | combination ns => rw [combination_injective hf hg h]
    | _ => cases hparen
  | cast a =>
    cases g with
    | cast b => rw [numericCast_injective h]
    | _ => cases hparen

end EnumForm

/-! ### What a form stands for -/

/-- The form stands for a value of the declaration. -/
def EnumForm.Denotes (k : IntKind) (e : EnumType) (raw : Int) : EnumForm → Prop
  | .constant name => ∃ value, (name, value) ∈ e.constants.entries ∧ k.Congruent value.val raw
  | .combination names => ∃ parts : List (String × Int128),
      (∀ c ∈ parts, c ∈ e.constants.entries) ∧ parts.map Prod.fst = names ∧
        k.unionPattern parts = k.pattern raw
  | .cast number => k.Congruent number raw

variable {e : EnumType} {k : IntKind}

/-- Two constants of one name are the same. -/
theorem EnumType.congruent_of_pattern_eq (hk : e.underlying = .integral k) {a b : Int}
    (h : k.pattern a = k.pattern b) : k.Congruent a b := by
  rw [← bits_eq_bits_iff_congruent hk, ← toNat_pattern hk, ← toNat_pattern hk, h]

/-- A form stands for the values of one pattern only. -/
theorem EnumForm.Denotes.congruent (hk : e.underlying = .integral k) {a b : Int} {f : EnumForm}
    (ha : f.Denotes k e a) (hb : f.Denotes k e b) : k.Congruent a b := by
  cases f with
  | constant name =>
    obtain ⟨x, hx, hxa⟩ := ha
    obtain ⟨y, hy, hyb⟩ := hb
    obtain ⟨-, rfl⟩ := Prod.mk.inj (Constants.eq_of_name_eq hx hy rfl)
    exact hxa.symm.trans hyb
  | combination names =>
    obtain ⟨xs, hxs, hxn, hxa⟩ := ha
    obtain ⟨ys, hys, hyn, hyb⟩ := hb
    obtain rfl : xs = ys := eq_of_map_eq
      (fun c hc d hd h => Constants.eq_of_name_eq (hxs c hc) (hys d hd) h) (hxn.trans hyn.symm)
    exact EnumType.congruent_of_pattern_eq hk (hxa.symm.trans hyb)
  | cast number => exact ha.symm.trans hb

theorem EnumForm.Denotes.mem_names {a : Int} {f : EnumForm} (h : f.Denotes k e a) :
    ∀ n ∈ f.names, n ∈ e.constants.names := by
  cases f with
  | constant name =>
    obtain ⟨x, hx, -⟩ := h
    intro n hn
    rw [List.mem_singleton.mp hn]
    exact List.mem_map_of_mem hx
  | combination names =>
    obtain ⟨xs, hxs, rfl, -⟩ := h
    intro n hn
    obtain ⟨c, hc, rfl⟩ := List.mem_map.mp hn
    exact List.mem_map_of_mem (hxs c hc)
  | cast number =>
    intro n hn
    cases hn

namespace EnumValue

variable {a b : Int128}

/-- The form of a value stands for the value. -/
theorem form_denotes {v : EnumValue} (hk : v.type.underlying = .integral k) :
    v.form.Denotes k v.type v.raw.val ∧ v.form ≠ .combination [] := by
  unfold form
  simp only [EnumType.nameOf_normalize, EnumType.decompose_normalize]
  cases hname : v.type.nameOf v.raw.val with
  | some name =>
    obtain ⟨before, value, after, hsplit, hc, -⟩ := (EnumType.nameOf_eq_some_iff hk).mp hname
    refine ⟨⟨value, ?_, hc⟩, nofun⟩
    rw [hsplit]
    exact List.mem_append_right before List.mem_cons_self
  | none =>
    have hcast : EnumForm.Denotes k v.type v.raw.val (.cast (v.type.normalize v.raw.val)) := by
      rw [EnumType.normalize_of_integral hk]
      exact k.wrap_congruent v.raw.val
    cases hdec : v.type.decompose v.raw.val with
    | none => exact ⟨hcast, nofun⟩
    | some names =>
      obtain ⟨parts, hdecl, rfl, hunion⟩ := EnumType.exists_parts_of_decompose hdec
      match parts with
      | [] => exact ⟨hcast, nofun⟩
      | [c] =>
        have hbits : v.type.bits c.2.val = v.type.bits v.raw.val := by simpa using hunion
        have hc := (EnumType.bits_eq_bits_iff_congruent hk).mp hbits
        exact ⟨⟨c.2, hdecl c List.mem_cons_self, hc⟩, nofun⟩
      | c :: d :: rest =>
        have hwhole := EnumType.unionPattern_eq hk hunion
        exact ⟨⟨c :: d :: rest, hdecl, rfl, hwhole⟩, nofun⟩

/-- Representations of one value have one literal. -/
theorem literal_congr (hk : e.underlying = .integral k) (n : Namer)
    (h : k.Congruent a.val b.val) :
    (EnumValue.mk e a).literal n = (EnumValue.mk e b).literal n := by
  have hnum : e.normalize a.val = e.normalize b.val := by
    rw [EnumType.normalize_of_integral hk, EnumType.normalize_of_integral hk, IntKind.wrap_congr h]
  unfold literal form
  dsimp only
  rw [hnum]

/-- Two values of an enum type have the same literal exactly if they are congruent, whatever the
name of the type is. -/
theorem literal_eq_iff {full : Bool} (hk : e.underlying = .integral k)
    (hnames : ∀ n ∈ e.constants.names, '@' ∉ n.toList ∧ ' ' ∉ n.toList) :
    (EnumValue.mk e a).literal (CSharp.namer full) = (EnumValue.mk e b).literal (CSharp.namer full)
      ↔ k.Congruent a.val b.val := by
  constructor
  · intro h
    have hread : ∀ raw : Int128, (EnumValue.mk e raw).form.IsReadable := by
      intro raw
      obtain ⟨hdenotes, hne⟩ := form_denotes (v := ⟨e, raw⟩) hk
      exact ⟨hne, fun n hn => (hnames n (hdenotes.mem_names n hn)).1,
        fun n hn => (hnames n (hdenotes.mem_names n hn)).2⟩
    have hform := EnumForm.render_injective (hread a) (hread b) h
    have ha := (form_denotes (v := ⟨e, a⟩) hk).1
    have hb := (form_denotes (v := ⟨e, b⟩) hk).1
    rw [hform] at ha
    exact ha.congruent hk hb
  · intro h
    exact literal_congr hk _ h

/-- A flags enum over `byte` whose constants overlap, one of them a reserved word and two of them
the same value.  Its name is a parenthesis. -/
def overlapping : EnumType where
  type := .ofName "("
  underlying := .integral .byte
  isFlags := true
  constants := .ofList
    [("class", ⟨9, by decide, by decide⟩), ("Second", ⟨2, by decide, by decide⟩),
      ("Alias", ⟨2, by decide, by decide⟩), ("Upper", ⟨-250, by decide, by decide⟩)]

theorem literal_eq_iff_overlapping : overlapping.underlying = .integral .byte ∧
    (∀ n ∈ overlapping.constants.names, '@' ∉ n.toList ∧ ' ' ∉ n.toList) ∧
    (EnumValue.mk overlapping ⟨15, by decide, by decide⟩).literal (CSharp.namer true)
      = (EnumValue.mk overlapping ⟨-241, by decide, by decide⟩).literal (CSharp.namer true) ∧
    (EnumValue.mk overlapping ⟨15, by decide, by decide⟩).literal (CSharp.namer true)
      ≠ (EnumValue.mk overlapping ⟨11, by decide, by decide⟩).literal (CSharp.namer true) := by
  have hk : overlapping.underlying = .integral .byte := rfl
  have hnames : ∀ n ∈ overlapping.constants.names, '@' ∉ n.toList ∧ ' ' ∉ n.toList := by
    decide +kernel
  refine ⟨hk, hnames, ?_, ?_⟩
  · exact (literal_eq_iff hk hnames).mpr (by decide)
  · intro h
    exact absurd ((literal_eq_iff hk hnames).mp h) (by decide)

end EnumValue

end LiteralForm
