/-
Finding the files of a project: every file below its directory, and of those the ones that a push
pattern recognizes in a known language.
-/
import LocaleSync.Recognition
import LocaleSync.Storage.Walk

namespace LocaleSync

/-- An activity that may fail and says what it does along the way. -/
abbrev Reporting := ExceptT Error (StateM (List Note))

namespace Reporting

/-- Notes made. -/
def note (ns : List Note) : Reporting Unit :=
  modify (· ++ ns)

end Reporting

/-- The directory of a project, without links, and the trails of names that lead from it to
files. -/
structure ProjectFiles where
  root : Location
  trails : List (List Text)
  deriving DecidableEq, Repr

namespace ProjectFiles

/-- The files below a directory. A file in place of the directory stands for itself. -/
def find (s : Storage) (root : Path) : Except Error ProjectFiles :=
  match s.canonical? root with
  | some (l, .directory) => .ok ⟨l, s.walk l⟩
  | some (l, .file _) => .ok ⟨l, [[]]⟩
  | some (l, _) => .ok ⟨l, []⟩
  | none => .error (.storage .resolvingRoot root)

/-- The paths of the files from the directory on. -/
def relative (fs : ProjectFiles) : List Path :=
  fs.trails.map fun trail => ⟨Text.joinWith ['/'] trail⟩

/-- The paths of the files from the root directory on. -/
def absolute (fs : ProjectFiles) : List Path :=
  fs.trails.map fun trail => Location.path (fs.root ++ trail)

end ProjectFiles

namespace PushPattern

/-- The files of a project that the pattern recognizes. -/
def discover (p : PushPattern) (s : Storage) (root : Path) (r : Registry) :
    Reporting (List LocaleFile) := do
  let fs ← (ProjectFiles.find s root : Except Error ProjectFiles)
  let met := fs.relative.map fun path => (path, p.recognize fs.root.path path r)
  Reporting.note (met.flatMap fun (path, found) => found.notes path)
  return met.filterMap fun (_, found) => found.file?

end PushPattern

end LocaleSync
