/-
Languages in documents: a record of number, code, name and, if it is not left to right, direction.
-/
import LocaleSync.Document.Json
import LocaleSync.Registry

namespace LocaleSync

open Document (Field Rules Value)

/-- The direction with this name. -/
def Direction.ofName? (name : Text) : Option Direction :=
  if name = "ltr".toList then some .ltr
  else if name = "rtl".toList then some .rtl
  else none

namespace Language

/-- The fields of a language. -/
def fields : List Field :=
  [.required "id", .required "code", .required "name", .defaulted "direction"]

/-- The language a value of a document stands for. -/
def ofValue? (rules : Rules) (v : Value) : Option Language := do
  match ← v.record? rules fields with
  | [some id, some code, some name, direction] =>
    some
      { id := ← id.word?
        code := ← code.text?
        name := ← name.text?
        direction := ← Value.orDefault .ltr
          (fun v => (v.alternative? rules).bind Direction.ofName?) direction }
  | _ => none

/-- The language a JSON document stands for. -/
def ofJson? (t : Text) : Option Language := do
  ofValue? Document.Json.rules (← Document.Json.parse? t)

end Language

namespace Registry

/-- The registry of the languages listed in a JSON document. -/
def ofJson (t : Text) : Except Error Registry :=
  match (Document.Json.parse? t).bind (Value.list? (Language.ofValue? Document.Json.rules)) with
  | some languages => .ok (ofList languages)
  | none => .error .languagesMalformed

end Registry

end LocaleSync
