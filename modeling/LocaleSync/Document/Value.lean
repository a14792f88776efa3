/-
The values of data documents, and how records are read from them.

A record is written as a table of its fields by name, or as a list of its fields in order. A
table may have further keys, but none of the record's twice. A field may be required, nullable
(a table may leave it out) or defaulted (a table may leave it out, and so may a list from some
field on). What differs between document formats is collected in `Rules`.
-/
import LocaleSync.Text.Basic

namespace LocaleSync.Document

/-- A value of a document. Of numbers only the integers from zero on are told apart. A text can
be well formed and yet have no characters, when it names half of a surrogate pair. -/
inductive Value where
  | null
  | bool (b : Bool)
  | natural (n : Nat)
  | otherNumber
  | text (t : Text)
  | unpairedText
  | date
  | list (items : List Value)
  | table (entries : List (Option Text × Value))

/-- What a document format decides about records. -/
structure Rules where
  /-- Whether a list may have more items than the record has fields. -/
  surplusItems : Bool
  /-- Whether a value may stand as the body of a named alternative without content. -/
  emptyBody : Value → Bool

/-- How a field of a record may be left out. -/
inductive Presence where
  | required
  | nullable
  | defaulted
  deriving DecidableEq, Repr

/-- A field of a record. -/
structure Field where
  name : Text
  presence : Presence
  deriving DecidableEq, Repr

namespace Field

/-- A field that must be there. -/
def required (name : String) : Field :=
  ⟨name.toList, .required⟩

/-- A field a table may leave out. -/
def nullable (name : String) : Field :=
  ⟨name.toList, .nullable⟩

/-- A field with a default. -/
def defaulted (name : String) : Field :=
  ⟨name.toList, .defaulted⟩

end Field

namespace Value

/-- A field's value among the entries of a table: none if it is left out and may be. -/
def fieldOf? (entries : List (Option Text × Value)) (f : Field) : Option (Option Value) :=
  match entries.filter (·.1 = some f.name) with
  | [] => if f.presence = .required then none else some none
  | [(_, v)] => some (some v)
  | _ => none

/-- The fields' values among the items of a list. -/
def items? (rules : Rules) : List Field → List Value → Option (List (Option Value))
  | [], items => if items.isEmpty || rules.surplusItems then some [] else none
  | f :: fs, [] =>
    if f.presence = .defaulted then (items? rules fs []).map (none :: ·) else none
  | _ :: fs, v :: items => (items? rules fs items).map (some v :: ·)

/-- The values of a record's fields, in the order of the fields. A date is a table of which no
record knows a field. -/
def record? (rules : Rules) (fields : List Field) : Value → Option (List (Option Value))
  | .table entries =>
    if entries.any (·.1.isNone) then none else fields.mapM (fieldOf? entries)
  | .date => fields.mapM (fieldOf? [])
  | .list items => items? rules fields items
  | _ => none

/-- An unsigned number of 64 bits. -/
def word? : Value → Option Nat
  | .natural n => if n < 18446744073709551616 then some n else none
  | _ => none

/-- A text. -/
def text? : Value → Option Text
  | .text t => some t
  | _ => none

/-- A list of values each read by `f`. -/
def list? {α : Type} (f : Value → Option α) : Value → Option (List α)
  | .list items => items.mapM f
  | _ => none

/-- A value that may also be absent or null. -/
def nullable? {α : Type} (f : Value → Option α) : Option Value → Option (Option α)
  | none => some none
  | some .null => some none
  | some v => (f v).map some

/-- The name of an alternative without content. -/
def alternative? (rules : Rules) : Value → Option Text
  | .text t => some t
  | .table [(some name, body)] => if rules.emptyBody body then some name else none
  | _ => none

/-- The value of a field, or `d` where it is left out. -/
def orDefault {α : Type} (d : α) (f : Value → Option α) : Option Value → Option α
  | none => some d
  | some v => f v

end Value

end LocaleSync.Document
