/-
TOML documents. A document is a list of sections: the first has no header, and every other one
starts with the header of a table or of an item in an array of tables. Dotted keys have fewer than
80 parts, and arrays and inline tables nest fewer than 80 deep.
-/
import LocaleSync.Document.Toml.Scalar
import LocaleSync.Document.Toml.Table

namespace LocaleSync.Document

namespace Toml

/-- What TOML decides about records. -/
def rules : Rules where
  surplusItems := true
  emptyBody
    | .list items => items.isEmpty
    | .table entries => entries.isEmpty
    | _ => false

/-- One more than the number of parts of a key, or of values around a value. -/
def depthLimit : Nat :=
  80

/-- What a key consists of when it is written without quotes. -/
def isBare (c : Char) : Bool :=
  c.isAlphanum || c == '_' || c == '-'

/-- One part of a key. -/
def keyPart? (t : Text) : Option (Text × Text) :=
  match t with
  | '"' :: rest => line? '"' true rest
  | '\x27' :: rest => line? apostrophe false rest
  | t =>
    match t.span isBare with
    | ([], _) => none
    | cut => some cut

/-- The parts of a key. `parts` bounds their number. -/
def keyParts? : (parts : Nat) → Text → Option (List Text × Text)
  | 0, _ => none
  | parts + 1, t => do
    let (k, rest) ← keyPart? (skip t)
    match skip rest with
    | '.' :: rest =>
      let (ks, rest) ← keyParts? parts rest
      some (k :: ks, rest)
    | rest => some ([k], rest)

/-- A key as the path to its table and its last part. -/
def key? (t : Text) : Option ((List Text × Text) × Text) := do
  let (ks, rest) ← keyParts? (depthLimit - 1) t
  some ((ks.dropLast, ← ks.getLast?), rest)

/-- What follows a comment, if there is one. -/
def skipComment (t : Text) : Text :=
  match t with
  | '#' :: rest => rest.dropWhile isPlain
  | t => t

/-- What follows the end of a line on which nothing but a comment is left. -/
def lineEnd? (t : Text) : Option Text :=
  match skipComment (skip t) with
  | [] => some []
  | t => newline? t

/-- What follows white space, line ends and comments. Every step takes a character, so `fuel` is
the length of the text. -/
def skipLines : (fuel : Nat) → Text → Text
  | 0, t => t
  | fuel + 1, t =>
    match newline? (skipComment (skip t)) with
    | some rest => skipLines fuel rest
    | none => skip t

mutual

/-- A value and what follows it. `fuel` bounds the work and is never reached; `depth` is how much
deeper values may nest. -/
def value? : (fuel depth : Nat) → Text → Option (Value × Text)
  | 0, _, _ => none
  | fuel + 1, depth, t =>
    match t with
    | '"' :: _ => (string? t).map fun (s, rest) => (.text s, rest)
    | '\x27' :: _ => (string? t).map fun (s, rest) => (.text s, rest)
    | '[' :: rest =>
      if depth ≤ 1 then none
      else
        match skipLines rest.length rest with
        | ']' :: rest => some (.list [], rest)
        | rest => (items? fuel (depth - 1) rest).map fun (vs, rest) => (.list vs, rest)
    | '\x7b' :: rest =>
      if depth ≤ 1 then none
      else
        match skip rest with
        | '\x7d' :: rest => some (.table [], rest)
        | rest =>
          (pairs? fuel (depth - 1) [] rest).map fun (es, rest) =>
            (.table (Entries.toFields es), rest)
    | 't' :: 'r' :: 'u' :: 'e' :: rest => some (.bool true, rest)
    | 'f' :: 'a' :: 'l' :: 's' :: 'e' :: rest => some (.bool false, rest)
    | t => numberOrDate? t

/-- The items of an array, at least one, up to its closing bracket; a comma may follow the last
one. -/
def items? : (fuel depth : Nat) → Text → Option (List Value × Text)
  | 0, _, _ => none
  | fuel + 1, depth, t => do
    let (v, rest) ← value? fuel depth t
    match skipLines rest.length rest with
    | ']' :: rest => some ([v], rest)
    | ',' :: rest =>
      match skipLines rest.length rest with
      | ']' :: rest => some ([v], rest)
      | rest =>
        let (vs, rest) ← items? fuel depth rest
        some (v :: vs, rest)
    | _ => none

/-- The pairs of an inline table added to `es`, at least one, up to its closing brace. -/
def pairs? : (fuel depth : Nat) → Entries → Text → Option (Entries × Text)
  | 0, _, _, _ => none
  | fuel + 1, depth, es, t => do
    let ((path, key), rest) ← key? t
    match rest with
    | '=' :: rest =>
      let (v, rest) ← value? fuel depth (skip rest)
      let es ← es.put .written path key v
      match skip rest with
      | '\x7d' :: rest => some (es, rest)
      | ',' :: rest => pairs? fuel depth es rest
      | _ => none
    | _ => none

end

/-- What starts a section. -/
inductive Header where
  | table (path : List Text) (key : Text)
  | item (path : List Text) (key : Text)
  deriving DecidableEq, Repr

/-- A line of a document that says something. -/
inductive Statement where
  | header (h : Header)
  | pair (path : List Text) (key : Text) (v : Value)

/-- A header after its first bracket, and what follows its line. -/
def header? (t : Text) : Option (Header × Text) :=
  match t with
  | '[' :: t => do
    let ((path, key), rest) ← key? t
    match rest with
    | ']' :: ']' :: rest => some (.item path key, ← lineEnd? rest)
    | _ => none
  | t => do
    let ((path, key), rest) ← key? t
    match rest with
    | ']' :: rest => some (.table path key, ← lineEnd? rest)
    | _ => none

/-- A key and its value, and what follows their line. -/
def pair? (t : Text) : Option (Statement × Text) := do
  let ((path, key), rest) ← key? t
  match rest with
  | '=' :: rest =>
    let rest := skip rest
    let (v, rest) ← value? (2 * rest.length + 2) depthLimit rest
    some (.pair path key v, ← lineEnd? rest)
  | _ => none

/-- The statements of a document. Every line takes a character, so `fuel` is the length of the
text. -/
def statements? : (fuel : Nat) → Text → Option (List Statement)
  | 0, t => if t.isEmpty then some [] else none
  | fuel + 1, t =>
    match skip t with
    | [] => some []
    | '[' :: rest => do
      let (h, rest) ← header? rest
      (statements? fuel rest).map (.header h :: ·)
    | c :: rest =>
      if c == '#' || c == '\n' || c == '\r' then do
        statements? fuel (← lineEnd? (c :: rest))
      else do
        let (s, rest) ← pair? (c :: rest)
        (statements? fuel rest).map (s :: ·)

/-- The pairs of a section added to what its table has already. -/
def fill (pairs : List (List Text × Text × Value)) (es : Entries) : Option Entries :=
  pairs.foldlM (fun es (path, key, v) => es.put .written path key v) es

/-- A section added to the document. -/
def place (h : Header) (pairs : List (List Text × Text × Value)) (doc : Entries) : Option Entries :=
  match h with
  | .table path key => doc.changeAt (Entries.writeTable (fill pairs) key) path
  | .item path key => doc.changeAt (Entries.writeItem (fill pairs) key) path

/-- The sections of the statements, the first one without its header. -/
def sections : List Statement →
    List (List Text × Text × Value) × List (Header × List (List Text × Text × Value))
  | [] => ([], [])
  | .pair path key v :: rest =>
    let (pairs, rest) := sections rest
    ((path, key, v) :: pairs, rest)
  | .header h :: rest =>
    let (pairs, rest) := sections rest
    ([], (h, pairs) :: rest)

/-- The table of all sections. -/
def build? (statements : List Statement) : Option Entries := do
  let (pairs, rest) := sections statements
  let doc ← fill pairs []
  rest.foldlM (fun doc (h, pairs) => place h pairs doc) doc

/-- A text without the byte order mark it may start with. -/
def skipMark (t : Text) : Text :=
  match t with
  | '\ufeff' :: rest => rest
  | t => t

/-- The value of a document. -/
def parse? (t : Text) : Option Value := do
  let t := skipMark t
  let doc ← build? (← statements? t.length t)
  some (.table (Entries.toFields doc))

end Toml

end LocaleSync.Document
