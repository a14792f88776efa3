/-
Pull patterns: templates that say where a pulled file of a language is written. A pull pattern
has a placeholder of a language (`compile`). `render` puts the values of a language for the
placeholders; `<extension>` is replaced only in a pattern that ends with it. `destination` is the
file so named, its path collapsed and taken relative to the project's directory. `resolve` starts
from the text of a pattern.
-/
import LocaleSync.LocaleFile
import LocaleSync.Template

namespace LocaleSync

/-- A template with a placeholder of a language. -/
structure PullPattern where
  raw : Text
  valid : Template.mentions raw Placeholder.ofLanguage = true
  deriving DecidableEq

namespace PullPattern

/-- The pattern of a text. -/
def compile (raw : Text) : Except Error PullPattern := do
  let t ← Template.having Placeholder.ofLanguage raw
  return ⟨t.val, t.property⟩

/-- The pattern used where none is given. -/
def standard : PullPattern where
  raw := "<language_code><extension>".toList
  valid := by decide

/-- Whether the pattern ends with `<extension>`. -/
def endsWithExtension (p : PullPattern) : Bool :=
  (Template.segments p.raw).getLast? = some (.placeholder .extension)

/-- The extension of a file name with its dot, or nothing. -/
def dottedExtension (name? : Option Text) : Text :=
  match name?.bind fun name => Path.extension? ⟨name⟩ with
  | some ext => '.' :: ext
  | none => []

/-- What a segment becomes for a language, with `ext` for the extension. -/
def renderSegment (l : Language) (ext : Text) : Segment → Text
  | .literal t => t
  | .placeholder v => (v.value? l).getD ext

/-- The path text for a language and the name of the file that is pulled. -/
def render (p : PullPattern) (l : Language) (name? : Option Text) : Text :=
  let ext := if p.endsWithExtension then dottedExtension name? else Placeholder.extension.token
  (Template.segments p.raw).flatMap (renderSegment l ext)

/-- What follows the last dot of the pattern. -/
def trailingExtension? (p : PullPattern) : Option Text :=
  Text.afterLast? '.' p.raw

/-- What follows the last separator of the pattern, of either kind. -/
def fileName (p : PullPattern) : Text :=
  (p.raw.reverse.takeWhile fun c => c != '/' && c != '\\').reverse

/-- Where the file of a language goes. -/
def destination (p : PullPattern) (base : Path) (l : Language) (name? : Option Text) :
    LocaleFile where
  relative := Path.relativeTo ⟨p.render l name?⟩ base
  language := l
  root := base

/-- Where the file of a language goes by the text of a pattern, or without one by the standard
pattern. -/
def resolve (base : Path) (l : Language) (raw? name? : Option Text) : Except Error LocaleFile := do
  let p ← match raw? with
    | some raw => compile raw
    | none => pure standard
  return p.destination base l name?

end PullPattern

end LocaleSync
