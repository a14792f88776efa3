/-
What to do with a pulled file whose destination exists.
-/
import LocaleSync.Error

namespace LocaleSync

/-- What to do with a file that is there already. -/
inductive ConflictAction where
  | skip
  | replace
  | newName
  deriving DecidableEq, Repr

namespace ConflictAction

/-- The action an option asks for. -/
def parse (text : Text) : Except Error ConflictAction :=
  if text = "skip".toList then .ok .skip
  else if text = "replace".toList then .ok .replace
  else if text = "set_new".toList then .ok .newName
  else .error (.configInvalid (.unknownAction text))

/-- The action as menus show it. -/
def title : ConflictAction → Text
  | .skip => "Skip".toList
  | .replace => "Replace".toList
  | .newName => "Set new filename".toList

end ConflictAction

end LocaleSync
