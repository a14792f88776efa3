/-
The languages of a project and the identifiers they answer to. Every identifier is looked up by
its key (`key`), so `en_US`, `EN-us` and ` en-us ` are one. The index is filled with the codes of
all languages, then with the names and their two spellings, then with the short codes; a key
that is taken stays where it is. Main fact to rely on: `find?` reads the first language entered
under a key.
-/
import LocaleSync.Error
import LocaleSync.Language
import LocaleSync.Text.Blank

namespace LocaleSync

namespace Language

/-- The form in which identifiers are compared: trimmed, in lower case, with dashes. -/
def key (identifier : Text) : Text :=
  Text.replaceChar '_' '-' (Text.lower (Text.trim identifier))

/-- The name and its spellings with a capital and in capitals. -/
def names (l : Language) : List Text :=
  [l.name, l.nameCapitalized, l.nameUppercased]

end Language

/-- The languages of a project with an index from keys to positions. -/
structure Registry where
  languages : List Language
  index : List (Text × Nat)
  deriving DecidableEq, Repr

namespace Registry

/-- The position entered under a key. -/
def position? (index : List (Text × Nat)) (key : Text) : Option Nat :=
  (index.find? (·.1 = key)).map (·.2)

/-- An identifier entered for a position, unless its key is taken. -/
def enter (index : List (Text × Nat)) (entry : Text × Nat) : List (Text × Nat) :=
  let key := Language.key entry.1
  if (position? index key).isSome then index else index ++ [(key, entry.2)]

/-- The identifiers of the languages in the order they are entered. -/
def identifiers (languages : List Language) : List (Text × Nat) :=
  let numbered := languages.zipIdx
  numbered.map (fun (l, i) => (l.code, i)) ++
    numbered.flatMap (fun (l, i) => l.names.map (·, i)) ++
    numbered.map fun (l, i) => (l.lang, i)

/-- The registry of a list of languages. -/
def ofList (languages : List Language) : Registry where
  languages
  index := (identifiers languages).foldl enter []

/-- The language an identifier stands for. -/
def find? (r : Registry) (identifier : Text) : Option Language := do
  let i ← position? r.index (Language.key identifier)
  r.languages[i]?

/-- The language an identifier stands for, or the error that names it. -/
def get (r : Registry) (identifier : Text) : Except Error Language :=
  match r.find? identifier with
  | some l => .ok l
  | none => .error (.languageNotFound identifier)

/-- The code of the language an identifier stands for. -/
def normalize (r : Registry) (identifier : Text) : Except Error Text :=
  (r.get identifier).map (·.code)

end Registry

end LocaleSync
