/-
TOML documents.

A document is a sequence of lines, each with a key and its value, a table header, or nothing but
blanks and a comment.  `Document.parse` reads the lines as statements and builds the tables from
them, one statement after another.  The entries of a document are its top-level keys in order of
appearance, each with the place of the key and of what was written for it.

* For a key and its value, that is the value as written.
* For a header, it is the header with its brackets; for a key that only leads to another one, in
  a dotted key or a longer header, it is the key itself.

Design notes: the readers of values call one another to any depth and count down a number of
calls, of which `2 * n + 2` suffice for a text of `n` characters.
-/
import LiteralForm.Text.Span
import LiteralForm.Toml.Quoted
import LiteralForm.Toml.Scalar

namespace LiteralForm.Toml

open Text (Span byteLength)

/-! ### Blanks and comments -/

/-- The text after its leading blanks. -/
def skipBlanks (s : List Char) : List Char := s.dropWhile isBlank

/-- The text after blanks and a comment. -/
def skipComment (s : List Char) : List Char :=
  match skipBlanks s with
  | '#' :: rest => rest.dropWhile isPlainChar
  | rest => rest

/-- The text after blanks, line ends and comments; the flag says that a comment is being passed
over. -/
def skipLines : Bool → List Char → List Char
  | _, [] => []
  | _, '\r' :: '\n' :: s => skipLines false s
  | inComment, c :: s =>
    if c = '\n' then skipLines false s
    else if inComment && isPlainChar c then skipLines true s
    else if !inComment && isBlank c then skipLines false s
    else if !inComment && c == '#' then skipLines true s
    else c :: s

/-! ### Keys -/

/-- The characters of a bare key. -/
def isKeyChar (c : Char) : Bool := c.isAlphanum || c == '_' || c == '-'

/-- Reads one key, bare or quoted. -/
def readKey (s : List Char) : Option (String × List Char) :=
  match s with
  | '\x22' :: rest => (readBasic rest).map fun r => (String.ofList r.1, r.2)
  | '\x27' :: rest => (readLiteral rest).map fun r => (String.ofList r.1, r.2)
  | s =>
    let key := s.takeWhile isKeyChar
    if key.isEmpty then none else some (String.ofList key, s.dropWhile isKeyChar)

/-- Reads the keys after a first one, each with a point before it. -/
def readMoreKeys : Nat → List Char → Option (List String × List Char)
  | 0, _ => none
  | calls + 1, s =>
    match skipBlanks s with
    | '.' :: rest =>
      match readKey (skipBlanks rest) with
      | none => none
      | some (key, rest) =>
        (readMoreKeys calls rest).map fun (keys, rest) => (key :: keys, rest)
    | rest => some ([], rest)

/-- Reads a dotted key: its first part, the text after that part, the other parts, and the text
after all of them and blanks. -/
def readPath (s : List Char) : Option (String × List Char × List String × List Char) :=
  (readKey s).bind fun (key, afterKey) =>
    (readMoreKeys (afterKey.length + 1) afterKey).map fun (keys, rest) =>
      (key, afterKey, keys, rest)

/-! ### Values -/

mutual

/-- Reads a value. -/
def readValue : Nat → List Char → Option (Toml × List Char)
  | 0, _ => none
  | calls + 1, s =>
    match s with
    | '[' :: rest =>
      match skipLines false rest with
      | ']' :: rest => some (array [], rest)
      | rest => (readItems calls rest).map fun (items, rest) => (array items, rest)
    | '\x7b' :: rest =>
      match skipLines false rest with
      | '\x7d' :: rest => some (table .inline [], rest)
      | rest => (readEntries calls [] rest).map fun (es, rest) => (table .inline es, rest)
    | '\x22' :: _ | '\x27' :: _ =>
      (readQuoted? s).map fun (text, rest) => (string (String.ofList text), rest)
    | s =>
      let (word, rest) := splitWord s
      (scalar? word).map fun v => (v, rest)

/-- Reads the items of an array, up to and with its closing bracket. -/
def readItems : Nat → List Char → Option (List Toml × List Char)
  | 0, _ => none
  | calls + 1, s =>
    match readValue calls s with
    | none => none
    | some (v, rest) =>
      match skipLines false rest with
      | ']' :: rest => some ([v], rest)
      | ',' :: rest =>
        match skipLines false rest with
        | ']' :: rest => some ([v], rest)
        | rest => (readItems calls rest).map fun (items, rest) => (v :: items, rest)
      | _ => none

/-- Reads the entries of an inline table, up to and with its closing bracket, after those that
have been read before. -/
def readEntries : Nat → Entries → List Char → Option (Entries × List Char)
  | 0, _, _ => none
  | calls + 1, es, s =>
    match readPath s with
    | some (key, _, keys, '=' :: rest) =>
      match readValue calls (skipBlanks rest) with
      | none => none
      | some (v, rest) =>
        match define v (key :: keys) es with
        | none => none
        | some es =>
          match skipLines false rest with
          | '\x7d' :: rest => some (es, rest)
          | ',' :: rest =>
            match skipLines false rest with
            | '\x7d' :: rest => some (es, rest)
            | rest => readEntries calls es rest
          | _ => none
    | _ => none

end

/-! ### Statements -/

/-- What one line says, with the place of the first key. -/
inductive Statement
  /-- A value under a dotted key, with the place of the value. -/
  | entry (key : String) (keySpan : Span) (more : List String) (value : Toml) (span : Span)
  /-- A header of one bracket, with its place. -/
  | header (key : String) (keySpan : Span) (more : List String) (span : Span)
  /-- A header of two brackets, with its place. -/
  | element (key : String) (keySpan : Span) (more : List String) (span : Span)

/-- Reads the dotted key of a header and the brackets that close it. -/
def readHeader (total : Nat) (isElement : Bool) (start s : List Char) :
    Option (Statement × List Char) :=
  let keyStart := skipBlanks s
  match readPath keyStart with
  | none => none
  | some (key, afterKey, keys, rest) =>
    let keySpan := Span.between total keyStart afterKey
    match isElement, rest with
    | false, ']' :: rest => some (.header key keySpan keys (.between total start rest), rest)
    | true, ']' :: ']' :: rest =>
      some (.element key keySpan keys (.between total start rest), rest)
    | _, _ => none

/-- Reads a dotted key, an equals sign and a value. -/
def readEntry (total : Nat) (s : List Char) : Option (Statement × List Char) :=
  match readPath s with
  | some (key, afterKey, keys, '=' :: rest) =>
    let valueStart := skipBlanks rest
    (readValue (2 * valueStart.length + 2) valueStart).map fun (v, rest) =>
      (.entry key (.between total s afterKey) keys v (.between total valueStart rest), rest)
  | _ => none

/-- Reads the statement that a text without leading blanks begins with. -/
def readStatement (total : Nat) (s : List Char) : Option (Statement × List Char) :=
  match s with
  | '[' :: '[' :: rest => readHeader total true s rest
  | '[' :: rest => readHeader total false s rest
  | s => readEntry total s

/-- What is left after a line end, or at the end of the text. -/
def endLine? (s : List Char) : Option (List Char) :=
  match s with
  | [] => some []
  | '\n' :: rest => some rest
  | '\r' :: '\n' :: rest => some rest
  | _ => none

/-- Reads all statements of a text. -/
def readStatements (total : Nat) : Nat → List Char → Option (List Statement)
  | 0, _ => none
  | lines + 1, s =>
    let start := skipBlanks s
    -- A carriage return alone begins no statement; `endLine?` refuses it.
    let statement :=
      match start with
      | [] | '\n' :: _ | '\r' :: _ | '#' :: _ => some ([], start)
      | _ => (readStatement total start).map fun (st, rest) => ([st], rest)
    match statement with
    | none => none
    | some (st, rest) =>
      match endLine? (skipComment rest) with
      | none => none
      | some [] => some st
      | some rest => (readStatements total lines rest).map fun sts => st ++ sts

/-! ### Documents -/

/-- A top-level key, its value, and the places of the key and of what was written for it. -/
structure Entry where
  key : String
  keySpan : Span
  value : Toml
  span : Span

/-- The entries of a document, in order of appearance. -/
abbrev Document := List Entry

/-- A document under construction. -/
structure Building where
  /-- The table that the latest header opened. -/
  header : List String
  /-- The entries of the document. -/
  entries : Entries
  /-- The places of the top-level keys and of what was written for them. -/
  places : List (Span × Span)

namespace Building

/-- Adds the places of a statement if it is the first about its top-level key. -/
def note (b : Building) (key : String) (keySpan span : Span) : List (Span × Span) :=
  if (Entries.find? key b.entries).isSome then b.places else b.places ++ [(keySpan, span)]

/-- The place of what a statement says of its first key. -/
def spanOf (keySpan span : Span) (more : List String) : Span :=
  if more.isEmpty then span else keySpan

/-- Takes one statement into the document. -/
def step (b : Building) : Statement → Option Building
  | .entry key keySpan more v span =>
    (defineAt b.header (key :: more) v b.entries).map fun es =>
      { b with
        entries := es
        places :=
          if b.header.isEmpty then b.note key keySpan (spanOf keySpan span more) else b.places }
  | .header key keySpan more span =>
    (openTable (key :: more) b.entries).map fun es =>
      ⟨key :: more, es, b.note key keySpan (spanOf keySpan span more)⟩
  | .element key keySpan more span =>
    (openElement (key :: more) b.entries).map fun es =>
      ⟨key :: more, es, b.note key keySpan (spanOf keySpan span more)⟩

/-- Takes statements into the document, one after another. -/
def run (b : Building) : List Statement → Option Building
  | [] => some b
  | st :: sts => (b.step st).bind fun b => b.run sts

end Building

/-- Pairs top-level entries with their places. -/
def withPlaces (es : Entries) (places : List (Span × Span)) : Document :=
  List.zipWith (fun e p => ⟨e.1, p.1, e.2, p.2⟩) es places

/-- The text after a byte order mark that it begins with. -/
def dropMark : List Char → List Char
  | c :: s => if c.toNat = 0xfeff then s else c :: s
  | [] => []

/-- The document that a text is. -/
def Document.parse (s : List Char) : Option Document :=
  (readStatements (byteLength s) (s.length + 1) (dropMark s)).bind fun sts =>
    (Building.run ⟨[], [], []⟩ sts).map fun b => withPlaces b.entries b.places

end LiteralForm.Toml
