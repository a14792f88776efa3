/-
The settings of a project: which remote project it is, where its files are and where they go, and
which languages it has. `validate` checks patterns and source language at once; the accessors
below check only what they give.
-/
import LocaleSync.Format
import LocaleSync.PullPattern
import LocaleSync.PushPattern
import LocaleSync.Registry
import LocaleSync.Text.Index

namespace LocaleSync

/-- The settings of a project, as texts that are not checked yet. -/
structure Config where
  organizationId : Nat
  projectId : Nat
  accessToken? : Option Text := none
  sourceLanguage? : Option Text := none
  pushPattern? : Option Text := none
  pullPatterns : List Text := []
  formats : Text.Index (List Text) := []
  languages : List Language := []
  deriving DecidableEq, Repr

namespace Config

/-- The languages with the identifiers they answer to. -/
def registry (c : Config) : Registry :=
  Registry.ofList c.languages

/-- The push pattern, which must be configured. -/
def pushPattern (c : Config) : Except Error PushPattern :=
  match c.pushPattern? with
  | none => .error (.configInvalid .noPushPattern)
  | some raw => PushPattern.compile raw

/-- The pull patterns; none stands for the standard one, which is used when nothing is
configured. -/
def compiledPullPatterns (c : Config) : Except Error (List (Option PullPattern)) :=
  if c.pullPatterns.isEmpty then .ok [none]
  else c.pullPatterns.mapM fun raw => (PullPattern.compile raw).map some

/-- The language files are pushed in, which must be configured. -/
def sourceLanguage (c : Config) (r : Registry) : Except Error Language :=
  match c.sourceLanguage? with
  | none => .error (.configInvalid .noSourceLanguage)
  | some identifier => r.get identifier

/-- The languages files are pulled in: all but those with the code of the source language. -/
def destinationLanguages (c : Config) (r : Registry) : Except Error (List Language) := do
  let source ← c.sourceLanguage r
  return r.languages.filter (·.code ≠ source.code)

/-- The builtin formats with those of the project put over them. -/
def formatTable (c : Config) : FormatTable :=
  FormatTable.builtin.merge (c.formats.map fun (code, extensions) => ⟨code, extensions⟩)

/-- The first fault of the settings. Whether the source language is known can only be told from
a list of languages. -/
def validate (c : Config) : Except Error Unit := do
  c.pushPattern?.forM fun raw => discard (PushPattern.compile raw)
  c.pullPatterns.forM fun raw => discard (PullPattern.compile raw)
  c.sourceLanguage?.forM fun identifier =>
    if c.languages.isEmpty then pure () else discard (c.registry.get identifier)

end Config

end LocaleSync
