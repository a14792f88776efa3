/-
Tables under construction. A table comes from a header or an inline table of its own, from the
path of another table's header, or from a dotted key; what may still be added to it depends on
that. A header may fill a table that only headers' paths have named, and a dotted key may only
add to a table that dotted keys have made.
-/
import LocaleSync.Document.Value

namespace LocaleSync.Document.Toml

/-- Where a table comes from. -/
inductive Origin where
  | written
  | named
  | dotted
  deriving DecidableEq, Repr

/-- What a key stands for: a value that is complete, a table, or the tables of an array of which
each was given by a header. -/
inductive Node where
  | value (v : Value)
  | table (origin : Origin) (entries : List (Text × Node))
  | tables (items : List (List (Text × Node)))

/-- The entries of a table. -/
abbrev Entries := List (Text × Node)

namespace Entries

/-- The node of a key. -/
def node? (es : Entries) (key : Text) : Option Node :=
  (es.find? (·.1 = key)).map (·.2)

/-- The entries with a node for a key. -/
def set (es : Entries) (key : Text) (n : Node) : Entries :=
  match es with
  | [] => [(key, n)]
  | e :: es => if e.1 = key then (key, n) :: es else e :: set es key n

/-- A value added under a dotted key, given by its path and its last part. The table that gets
the value must be the one at hand or made by a dotted key. -/
def put (origin : Origin) : (path : List Text) → Text → Value → Entries → Option Entries
  | [], key, v, es =>
    if origin = .named || (es.node? key).isSome then none else some (es ++ [(key, .value v)])
  | k :: path, key, v, es =>
    match es.node? k with
    | none => do
      let inner ← put .dotted path key v []
      some (es ++ [(k, .table .dotted inner)])
    | some (.table .written _) => none
    | some (.table origin inner) => do
      let inner ← put origin path key v inner
      some (es.set k (.table origin inner))
    | some (.tables items) => do
      let last ← items.getLast?
      let inner ← put .named path key v last
      some (es.set k (.tables (items.dropLast ++ [inner])))
    | some (.value _) => none

/-- A change of the table at the end of a header's path; in an array of tables the path goes on
in the last one. -/
def changeAt (f : Entries → Option Entries) : (path : List Text) → Entries → Option Entries
  | [], es => f es
  | k :: path, es =>
    match es.node? k with
    | none => do
      let inner ← changeAt f path []
      some (es ++ [(k, .table .named inner)])
    | some (.table origin inner) => do
      let inner ← changeAt f path inner
      some (es.set k (.table origin inner))
    | some (.tables items) => do
      let last ← items.getLast?
      let inner ← changeAt f path last
      some (es.set k (.tables (items.dropLast ++ [inner])))
    | some (.value _) => none

/-- The table of a key written out: it starts with what headers' paths have put there. -/
def writeTable (fill : Entries → Option Entries) (key : Text) (es : Entries) : Option Entries := do
  let start ← match es.node? key with
    | none => some []
    | some (.table .named inner) => some inner
    | some _ => none
  some (es.set key (.table .written (← fill start)))

/-- One more table in the array of a key. -/
def writeItem (fill : Entries → Option Entries) (key : Text) (es : Entries) : Option Entries := do
  let items ← match es.node? key with
    | none => some []
    | some (.tables items) => some items
    | some _ => none
  some (es.set key (.tables (items ++ [← fill []])))

end Entries

mutual

/-- The value a node stands for. -/
def Node.toValue : Node → Value
  | .value v => v
  | .table _ es => .table (Entries.toFields es)
  | .tables items => .list (Entries.toItems items)

/-- The values of entries. -/
def Entries.toFields : List (Text × Node) → List (Option Text × Value)
  | [] => []
  | (k, n) :: es => (some k, n.toValue) :: Entries.toFields es

/-- The values of tables. -/
def Entries.toItems : List (List (Text × Node)) → List Value
  | [] => []
  | es :: rest => .table (Entries.toFields es) :: Entries.toItems rest

end

end LocaleSync.Document.Toml
