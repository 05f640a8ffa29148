/-
Options are read back from their text.

* `Options.parse_text_document`: the text of options is a document of their two settings;
* `Options.parse_text_eq`: reading the text gives the options again, under any name of the
  document and from a file as well, for all 64 bits of the threshold.
-/
import LiteralForm.Proofs.Options.Schema
import LiteralForm.Proofs.Toml.Line

namespace LiteralForm.Options

open Toml Text

/-! ### The two lines -/

theorem isBareKey_fullTypeNamesKey : IsBareKey fullTypeNamesKey.toList :=
  ⟨by decide, List.all_eq_true.mp (by decide)⟩

theorem isBareKey_verbatimThresholdKey : IsBareKey verbatimThresholdKey.toList :=
  ⟨by decide, List.all_eq_true.mp (by decide)⟩

theorem isWord_boolean (b : Bool) :
    IsWord (if b then "true" else "false").toList (.boolean b) := by
  cases b with
  | false => exact ⟨by decide, List.all_eq_true.mp (by decide), rfl⟩
  | true => exact ⟨by decide, List.all_eq_true.mp (by decide), rfl⟩

theorem isWord_toDigits (n : Nat) : IsWord (Nat.toDigits 10 n) (.integer n) where
  ne_nil := (isDigits_toDigits n).ne_nil
  isWordChar c hc := by
    have hdigit := (isDigits_toDigits n).isDigit c hc
    simp [isWordChar, Char.isAlphanum, hdigit]
  value := scalar?_toDigits n

theorem toList_text (o : Options) : o.text.toList
    = fullTypeNamesKey.toList ++ ' ' :: '=' :: ' '
        :: ((if o.fullTypeNames then "true" else "false").toList ++ '\n'
          :: (verbatimThresholdKey.toList ++ ' ' :: '=' :: ' '
            :: (Nat.toDigits 10 o.verbatimThreshold.toNat ++ '\n' :: []))) := by
  simp [text]

/-- The text of options is a document of their two settings, wherever these stand in it. -/
theorem parse_text_document (o : Options) : ∃ keySpan span keySpan' span',
    Document.parse o.text.toList
      = some [⟨fullTypeNamesKey, keySpan, .boolean o.fullTypeNames, span⟩,
          ⟨verbatimThresholdKey, keySpan', .integer o.verbatimThreshold.toNat, span'⟩] := by
  have htext := toList_text o
  have hmark : dropMark o.text.toList = o.text.toList := by
    rw [htext]
    rfl
  -- The calls are counted by characters, and the first statement takes one of them.
  have hlines : o.text.toList.length - 1 + 1 = o.text.toList.length := by
    refine Nat.sub_add_cancel (List.length_pos_of_ne_nil ?_)
    rw [htext]
    simp
  obtain ⟨keySpan', span', hlast⟩ := readStatements_setting isBareKey_verbatimThresholdKey
    (isWord_toDigits o.verbatimThreshold.toNat) (byteLength o.text.toList)
    (o.text.toList.length - 1) []
  obtain ⟨keySpan, span, hfirst⟩ := readStatements_setting isBareKey_fullTypeNamesKey
    (isWord_boolean o.fullTypeNames) (byteLength o.text.toList) o.text.toList.length
    (verbatimThresholdKey.toList ++ ' ' :: '=' :: ' '
      :: (Nat.toDigits 10 o.verbatimThreshold.toNat ++ '\n' :: []))
  rw [hlines, if_pos rfl, String.ofList_toList] at hlast
  rw [← htext, if_neg (by simp), hlast, String.ofList_toList] at hfirst
  refine ⟨keySpan, span, keySpan', span', ?_⟩
  rw [Document.parse, hmark, hfirst]
  rfl

/-- Options are described by their own two settings, whatever the fallback. -/
theorem describes_settings (fallback o : Options) : Describes fallback
    [(fullTypeNamesKey, .boolean o.fullTypeNames),
      (verbatimThresholdKey, .integer o.verbatimThreshold.toNat)] o := by
  have hnew : fullTypeNamesKey
      ∉ [(verbatimThresholdKey, Toml.integer o.verbatimThreshold.toNat)].map Prod.fst := by
    simp [verbatimThresholdKey_ne.symm]
  obtain ⟨hnames, hthreshold⟩ : Describes o [] o := ⟨.nil, .nil⟩
  exact ⟨(hnames.cons_of_ne verbatimThresholdKey_ne _).cons_self hnew _,
    (hthreshold.cons_self nofun _).cons_of_ne verbatimThresholdKey_ne.symm _⟩

/-- The options that a text was written for are read back, under any name of the document, and so
they are from a file with the bytes of the text. -/
theorem parse_text_eq (o : Options) :
    (∀ documentName, parse documentName o.text = .ok o) ∧
      ∀ path, load path (.ok o.text.toUTF8) = .ok (o, loaded path o) := by
  have hparse : ∀ documentName, parse documentName o.text = .ok o := by
    intro documentName
    obtain ⟨_, _, _, _, hdocument⟩ := parse_text_document o
    refine (parse_eq_ok_iff hdocument).mpr ((ofDocument_eq_ok_iff ?distinct).mpr ⟨?settings, ?_⟩)
    case distinct =>
      show [fullTypeNamesKey, verbatimThresholdKey].Nodup
      decide
    case settings =>
      refine List.forall_mem_cons.mpr ⟨.fullTypeNames _, List.forall_mem_cons.mpr ⟨?_, nofun⟩⟩
      exact .verbatimThreshold (Int.natCast_nonneg _)
        (Int.ofNat_lt.mpr o.verbatimThreshold.toNat_lt_size)
    exact describes_settings .default o
  refine ⟨hparse, ?_⟩
  intro path
  have hdecode : String.fromUTF8? o.text.toUTF8 = some o.text := dif_pos o.text.isValidUTF8
  simp only [load, hdecode, hparse]

end LiteralForm.Options
