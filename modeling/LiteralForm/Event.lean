/-
Events worth logging.

Rendering and loading report what a reader of the output might wonder about.  An `Event` is the
cause; its level, message and fields are what a log shows.
-/
import LiteralForm.Integer

namespace LiteralForm

/-- The severity of an event. -/
inductive Level
  | debug
  | trace
  deriving DecidableEq, Repr

/-- The name of a level in a log. -/
def Level.name : Level → String
  | debug => "DEBUG"
  | trace => "TRACE"

/-- Something worth logging. -/
inductive Event
  /-- A character has no literal, since it takes two UTF-16 units. -/
  | wideChar (codePoint : Nat)
  /-- A struct has no literal, since it is not the default of its type. -/
  | nonDefaultStruct
  /-- A value of a kind that has no literals. -/
  | unsupported (typeName : String)
  /-- A string is written verbatim. -/
  | verbatimString (bytes threshold : Nat)
  /-- An enum value is written as a cast of a number. -/
  | unnamedEnum (number : Int)
  /-- Options have been loaded from a file. -/
  | optionsLoaded (path : String) (fullTypeNames : Bool) (verbatimThreshold : Nat)
  deriving DecidableEq, Repr

namespace Event

/-- The severity of an event. -/
def level : Event → Level
  | verbatimString .. | unnamedEnum _ => .trace
  | _ => .debug

/-- What a log says of an event. -/
def message : Event → String
  | wideChar _ => "char does not fit one UTF-16 unit"
  | nonDefaultStruct => "non-default struct has no literal form"
  | unsupported _ => "value has no literal form"
  | verbatimString .. => "using verbatim string literal"
  | unnamedEnum _ => "enum value has no named decomposition"
  | optionsLoaded .. => "loaded stringify options"

/-- The fields of an event. -/
def fields : Event → List (String × String)
  | wideChar n => [("kind", "char"), ("code_point", toString n)]
  | nonDefaultStruct => [("kind", "struct")]
  | unsupported t => [("kind", "unsupported"), ("type_name", t)]
  | verbatimString n t => [("len", toString n), ("threshold", toString t)]
  | unnamedEnum n => [("raw", toString n)]
  | optionsLoaded p f t =>
    [("path", p), ("full_type_names", toString f), ("verbatim_threshold", toString t)]

end Event

end LiteralForm
