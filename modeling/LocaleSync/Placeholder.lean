/-
The placeholders of a path template, written `<name>`. Five stand for something of a language;
`<extension>` stands for the extension of a file's name. Two of them can be read back from a
path: a code such as `pt-br`, and the part of it before the dash.
-/
import LocaleSync.Language

namespace LocaleSync

/-- A placeholder of a path template. -/
inductive Placeholder where
  | code
  | name
  | nameCapitalized
  | nameUppercased
  | lang
  | extension
  deriving DecidableEq, Repr

namespace Placeholder

/-- Every placeholder. -/
def all : List Placeholder :=
  [.code, .name, .nameCapitalized, .nameUppercased, .lang, .extension]

/-- The placeholders of a language, in the order their values are looked up. -/
def ofLanguage : List Placeholder :=
  [.code, .name, .nameCapitalized, .nameUppercased, .lang]

/-- The placeholders that can be read back from a path. -/
def recoverable : List Placeholder :=
  [.code, .lang]

/-- The name between the angle brackets. -/
def label : Placeholder → Text
  | .code => "language_code".toList
  | .name => "language_name".toList
  | .nameCapitalized => "language_name_cap".toList
  | .nameUppercased => "language_name_allcap".toList
  | .lang => "language_lang_code".toList
  | .extension => "extension".toList

/-- The placeholder as templates spell it. -/
def token (v : Placeholder) : Text :=
  '<' :: v.label ++ ['>']

/-- The placeholder with a given name. -/
def ofLabel? (label : Text) : Option Placeholder :=
  all.find? (·.label = label)

/-- What stands for the placeholder in a path of language `l`. -/
def value? (l : Language) : Placeholder → Option Text
  | .code => some l.code
  | .name => some l.name
  | .nameCapitalized => some l.nameCapitalized
  | .nameUppercased => some l.nameUppercased
  | .lang => some l.lang
  | .extension => none

/-- The expression for the texts a recoverable placeholder matches. -/
def fragment? : Placeholder → Option Text
  | .code => some "\\w\x7b2\x7d-\\w\x7b2\x7d".toList
  | .lang => some "\\w+".toList
  | _ => none

/-- The tokens of a list of placeholders, for messages. -/
def describe (vs : List Placeholder) : Text :=
  Text.joinWith ", ".toList (vs.map token)

end Placeholder

end LocaleSync
