/-
A file of a project in one language: where it lies below the project's root, and the name it has
in the remote project (`uniqueName`). `withName` keeps the directory and changes the file name.
-/
import LocaleSync.Language
import LocaleSync.Path

namespace LocaleSync

/-- A file in one language, below a root directory. -/
structure LocaleFile where
  relative : Path
  language : Language
  root : Path
  /-- The file name, empty when the path does not end in one. -/
  name : Text := relative.fileName?.getD []
  name_eq : name = relative.fileName?.getD [] := by rfl
  deriving DecidableEq, Repr

namespace LocaleFile

/-- The name of a file follows from its path. -/
@[ext]
theorem ext {f g : LocaleFile} (hrelative : f.relative = g.relative)
    (hlanguage : f.language = g.language) (hroot : f.root = g.root) : f = g := by
  have hname : f.name = g.name := by rw [f.name_eq, g.name_eq, hrelative]
  cases f
  cases g
  simp_all

/-- The path from the root on. -/
def fullPath (f : LocaleFile) : Path :=
  f.root.join f.relative

/-- What follows the first dot of the name. This decides the format of a file. -/
def extension? (f : LocaleFile) : Option Text :=
  Text.afterFirst? '.' f.name

/-- The relative path with single separators. -/
def posix (f : LocaleFile) : Text :=
  f.relative.posix

/-- The names on the relative path. -/
def parts (f : LocaleFile) : List Text :=
  f.relative.parts

/-- The name of the file in the remote project: `i18n-en-us-app.json` for
`i18n/en-us/App.json`. -/
def uniqueName (f : LocaleFile) : Text :=
  Text.lower (Text.joinWith ['-'] f.parts)

/-- The file of another name in the same directory. -/
def withName (f : LocaleFile) (name : Text) : LocaleFile where
  relative :=
    match f.relative.parent? with
    | some directory => directory.join ⟨name⟩
    | none => ⟨name⟩
  language := f.language
  root := f.root

end LocaleFile

end LocaleSync
