/-
Options as TOML documents.

`Options.parse` reads a document with two optional keys, `full-type-names` with a boolean and
`verbatim-threshold` with an integer of 64 bits.  Anything else is an error: an unknown key, a
value of another type, a document that is not TOML.  An error of the first two kinds has a place,
that of the first entry which is not as it should be.

* `Options.ofDocument` is the reading of a document, entry by entry;
* `Options.text` writes a document that reads back as the same options;
* `Options.load` reads the bytes of a file and reports what it has read.
-/
import LiteralForm.Event
import LiteralForm.Options
import LiteralForm.Toml.Document

namespace LiteralForm

open Text (Span)

/-- The reason why a file cannot be read as text. -/
inductive FileFault
  | notFound
  | isDirectory
  /-- The bytes are not UTF-8. -/
  | invalidData
  deriving DecidableEq, Repr

/-- The reason why options are refused. -/
inductive OptionsError
  /-- The file cannot be read. -/
  | unreadable (path : String) (fault : FileFault)
  /-- The document of the given name is no document of options; the place is known unless the
  document is not TOML at all. -/
  | invalid (documentName : String) (place : Option Span)
  deriving DecidableEq, Repr

namespace OptionsError

/-- The wording of an error. -/
def message : OptionsError → String
  | unreadable path _ => "failed to read '" ++ path ++ "'"
  | invalid .. => "failed to parse stringify options"

/-- The identifier of an error. -/
def code : OptionsError → String
  | unreadable .. => "codelit::io_error"
  | invalid .. => "codelit::parse_error"

/-- Advice to the reader of an error. -/
def help : OptionsError → String
  | unreadable .. => "check that the options file exists and is readable"
  | invalid .. => "valid keys are: full-type-names, verbatim-threshold"

/-- What is written at the place of an error. -/
def label : String := "parse error here"

end OptionsError

namespace Options

/-- The name of a document that is not from a file. -/
def defaultDocumentName : String := "codelit.toml"

/-- The key of the setting for type names. -/
def fullTypeNamesKey : String := "full-type-names"

/-- The key of the setting for verbatim strings. -/
def verbatimThresholdKey : String := "verbatim-threshold"

/-! ### Reading -/

/-- Takes one entry of a document into the options; an entry that is not as it should be gives
the place to blame. -/
def takeEntry (o : Options) (e : Toml.Entry) : Except Span Options :=
  if e.key = fullTypeNamesKey then
    match e.value with
    | .boolean b => .ok { o with fullTypeNames := b }
    | _ => .error e.span
  else if e.key = verbatimThresholdKey then
    match e.value with
    | .integer n =>
      if IntKind.uint64.InRange n then .ok { o with verbatimThreshold := .ofNat n.toNat }
      else .error e.span
    | _ => .error e.span
  else .error e.keySpan

/-- The options of a document, with defaults for what it does not mention. -/
def ofDocument (d : Toml.Document) : Except Span Options := d.foldlM takeEntry .default

/-- The options that a text describes; the name of the document is for errors only. -/
def parse (documentName text : String) : Except OptionsError Options :=
  match Toml.Document.parse text.toList with
  | none => .error (.invalid documentName none)
  | some d =>
    match ofDocument d with
    | .ok o => .ok o
    | .error place => .error (.invalid documentName (some place))

/-! ### Writing -/

/-- A document that describes the options. -/
def text (o : Options) : String :=
  fullTypeNamesKey ++ " = " ++ (if o.fullTypeNames then "true" else "false") ++ "\n"
    ++ verbatimThresholdKey ++ " = " ++ toString o.verbatimThreshold.toNat ++ "\n"

/-! ### Files -/

/-- The event that reports the options of a file. -/
def loaded (path : String) (o : Options) : Event :=
  .optionsLoaded path o.fullTypeNames o.verbatimThreshold.toNat

/-- The options of the file at a path with the given bytes, and the event that reports them. -/
def load (path : String) (bytes : Except FileFault ByteArray) :
    Except OptionsError (Options × Event) :=
  match bytes with
  | .error fault => .error (.unreadable path fault)
  | .ok bytes =>
    match String.fromUTF8? bytes with
    | none => .error (.unreadable path .invalidData)
    | some text =>
      match parse path text with
      | .error e => .error e
      | .ok o => .ok (o, loaded path o)

end Options

end LiteralForm
