/-
Settings in TOML documents: those of a project and those of a user.
-/
import LocaleSync.Config
import LocaleSync.Document.Toml
import LocaleSync.Language.Document

namespace LocaleSync

open Document (Field Value)
open Document.Toml (rules)

/-- The settings of a user. -/
structure UserConfig where
  accessToken? : Option Text
  deriving DecidableEq, Repr

/-- The user's settings in a document. -/
def UserConfig.ofToml? (t : Text) : Option UserConfig := do
  match ← (← Document.Toml.parse? t).record? rules [.nullable "access_token"] with
  | [token] => some { accessToken? := ← Value.nullable? Value.text? token }
  | _ => none

namespace Config

/-- The fields of a project's settings. -/
def fields : List Field :=
  [.required "project", .defaulted "push", .defaulted "pull", .defaulted "content_types",
    .defaulted "languages"]

/-- The settings that say which project it is. -/
def ofProject? (v : Value) : Option Config := do
  match ← v.record? rules [.required "organization_id", .required "project_id",
      .nullable "access_token", .nullable "source_language"] with
  | [some organization, some project, token, source] =>
    some
      { organizationId := ← organization.word?
        projectId := ← project.word?
        accessToken? := ← Value.nullable? Value.text? token
        sourceLanguage? := ← Value.nullable? Value.text? source }
  | _ => none

/-- The settings for pushing. -/
def push? (v : Value) : Option (Option Text) := do
  match ← v.record? rules [.nullable "pattern"] with
  | [pattern] => Value.nullable? Value.text? pattern
  | _ => none

/-- The settings for pulling. -/
def pull? (v : Value) : Option (List Text) := do
  match ← v.record? rules [.defaulted "patterns"] with
  | [patterns] => Value.orDefault [] (Value.list? Value.text?) patterns
  | _ => none

/-- The extensions of a project's formats. -/
def formats? : Value → Option (Text.Index (List Text))
  | .table entries => entries.foldlM (fun ix (code, v) => do
      return Text.Index.insert (← code) (← Value.list? Value.text? v) ix) []
  | _ => none

/-- The project's settings in a document. -/
def ofToml? (t : Text) : Option Config := do
  match ← (← Document.Toml.parse? t).record? rules fields with
  | [some project, push, pull, formats, languages] =>
    let c ← ofProject? project
    some
      { c with
        pushPattern? := ← Value.orDefault none push? push
        pullPatterns := ← Value.orDefault [] pull? pull
        formats := ← Value.orDefault [] formats? formats
        languages := ← Value.orDefault [] (Value.list? (Language.ofValue? rules)) languages }
  | _ => none

end Config

end LocaleSync
