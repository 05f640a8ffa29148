/-
TOML values and tables.

A table remembers how it came about, because that decides what may still be added to it: a table
written out inline is closed, one opened by a header cannot be opened again, one that exists only
on the way to another can still be opened, and one made by dotted keys can take more dotted keys.

* `define` adds a value under a dotted key;
* `openTable` and `openElement` follow a header of one and of two brackets;
* `defineAt` adds a value below the table that the latest header opened.

Each of them walks a path of keys through the entries of a table and fails where the path is
blocked.  Entries keep the order of their first appearance.

Design notes: the values of numbers with a point, of dates and of times are of no interest here;
that they are well-formed is checked while they are read.
-/
import LiteralForm.Entries

namespace LiteralForm

/-- How a table came about. -/
inductive Toml.Origin
  | inline
  | header
  | implicit
  | dotted
  deriving DecidableEq, Repr

/-- A TOML value. -/
inductive Toml
  | string (text : String)
  | integer (n : Int)
  | float
  | boolean (b : Bool)
  | datetime
  | array (items : List Toml)
  | table (origin : Toml.Origin) (entries : List (String × Toml))
  /-- The tables that headers of two brackets have opened under one name. -/
  | tables (elements : List (List (String × Toml)))

namespace Toml

/-- The entries of a table. -/
abbrev Entries := List (String × Toml)

open LiteralForm.Entries (find? replace)

/-- Adds a value under a dotted key. -/
def define (v : Toml) : List String → Entries → Option Entries
  | [], _ => none
  | [key], es => if (find? key es).isSome then none else some (es ++ [(key, v)])
  | key :: path, es =>
    match find? key es with
    | none => (define v path []).map fun inner => es ++ [(key, table .dotted inner)]
    | some (table .dotted inner) =>
      (define v path inner).map fun inner => replace key (table .dotted inner) es
    | some _ => none

/-- Changes the table that a path leads to; tables that are missing on the way come into being,
and the latest element stands for the elements of one name. -/
def modify (change : String → Entries → Option Entries) :
    List String → Entries → Option Entries
  | [], _ => none
  | [key], es => change key es
  | key :: path, es =>
    match find? key es with
    | none => (modify change path []).map fun inner => es ++ [(key, table .implicit inner)]
    | some (table .inline _) => none
    | some (table origin inner) =>
      (modify change path inner).map fun inner => replace key (table origin inner) es
    | some (tables elements) =>
      match elements.getLast? with
      | none => none
      | some last =>
        (modify change path last).map fun last =>
          replace key (tables (elements.dropLast ++ [last])) es
    | some _ => none

/-- Opens the table under a key. -/
def openLast (key : String) (es : Entries) : Option Entries :=
  match find? key es with
  | none => some (es ++ [(key, table .header [])])
  -- It came into being on the way to another table, and no header has opened it yet.
  | some (table .implicit inner) => some (replace key (table .header inner) es)
  | some _ => none

/-- Opens a new element of the tables under a key. -/
def appendElement (key : String) (es : Entries) : Option Entries :=
  match find? key es with
  | none => some (es ++ [(key, tables [[]])])
  | some (tables elements) => some (replace key (tables (elements ++ [[]])) es)
  | some _ => none

/-- Follows a header of one bracket. -/
def openTable : List String → Entries → Option Entries := modify openLast

/-- Follows a header of two brackets. -/
def openElement : List String → Entries → Option Entries := modify appendElement

/-- Adds a value to the table under a key, or to the latest of the tables under it. -/
def defineLast (v : Toml) (path : List String) (key : String) (es : Entries) :
    Option Entries :=
  match find? key es with
  | some (table origin inner) =>
    (define v path inner).map fun inner => replace key (table origin inner) es
  | some (tables elements) =>
    match elements.getLast? with
    | none => none
    | some last =>
      (define v path last).map fun last =>
        replace key (tables (elements.dropLast ++ [last])) es
  | _ => none

/-- Adds a value under a dotted key below the table that a header has opened; the document
itself is the table of the empty header. -/
def defineAt (header path : List String) (v : Toml) (es : Entries) : Option Entries :=
  match header with
  | [] => define v path es
  | header => modify (defineLast v path) header es

end Toml

end LiteralForm
