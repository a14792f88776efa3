/-
A language of a project: its number, its code such as `pt-br`, and its English name.
-/
import LocaleSync.Text.Casing

namespace LocaleSync

/-- The direction a language is written in. -/
inductive Direction where
  | ltr
  | rtl
  deriving DecidableEq, Repr

/-- A language as the project lists it. -/
structure Language where
  id : Nat
  code : Text
  name : Text
  direction : Direction := .ltr
  deriving DecidableEq, Repr

namespace Language

/-- The code up to its first dash: `pt` for `pt-br`. -/
def lang (l : Language) : Text :=
  Text.beforeFirst '-' l.code

/-- The name with only its first letter in upper case. -/
def nameCapitalized (l : Language) : Text :=
  Text.capitalized l.name

/-- The name in upper case. -/
def nameUppercased (l : Language) : Text :=
  Text.upper l.name

end Language

end LocaleSync
