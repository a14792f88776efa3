/-
Recognizing a file of the project: its path matches the push pattern, and one of the values read
back from it identifies a language of the registry. A path that matches and names no known
language is left out with a warning.
-/
import LocaleSync.LocaleFile
import LocaleSync.Note
import LocaleSync.PushPattern
import LocaleSync.Registry

namespace LocaleSync

/-- What a push pattern makes of a path. -/
inductive Recognition where
  | unrelated
  | unknownLanguage (tokens : List Text)
  | file (f : LocaleFile)
  deriving DecidableEq, Repr

namespace Recognition

/-- The file, if there is one. -/
def file? : Recognition → Option LocaleFile
  | .file f => some f
  | _ => none

/-- Texts in quotes, in a list. The texts hold word characters and dashes, so nothing in them
needs an escape. -/
def quotedList (ts : List Text) : Text :=
  '[' :: Text.joinWith ", ".toList (ts.map fun t => '"' :: t ++ ['"']) ++ [']']

/-- What is to be said about the path. -/
def notes (path : Path) : Recognition → List Note
  | .unknownLanguage tokens =>
    [.warn ("Language code ".toList ++ quotedList tokens ++
      " not found in qordoba, skipping ".toList ++ path.posix)]
  | _ => []

end Recognition

namespace PushPattern

/-- What the pattern makes of a path below `root`. -/
def recognize (p : PushPattern) (root path : Path) (r : Registry) : Recognition :=
  match p.captures? path.posix with
  | none => .unrelated
  | some values =>
    let tokens := languageTokens values
    match tokens.findSome? r.find? with
    | some language => .file { relative := path, language, root }
    | none => .unknownLanguage tokens

end PushPattern

end LocaleSync
