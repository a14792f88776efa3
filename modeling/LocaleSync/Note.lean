/-
Notes: what an operation tells its user along the way.
-/
import LocaleSync.Text.Basic

namespace LocaleSync

/-- How much a note matters. -/
inductive Level where
  | info
  | warn
  deriving DecidableEq, Repr

/-- A sentence for the user. -/
structure Note where
  level : Level
  text : Text
  deriving DecidableEq, Repr

namespace Note

/-- A note on what is going on. -/
def info (text : Text) : Note :=
  ⟨.info, text⟩

/-- A note on something that may need attention. -/
def warn (text : Text) : Note :=
  ⟨.warn, text⟩

end Note

end LocaleSync
