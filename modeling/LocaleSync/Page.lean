/-
What the remote project answers: the pages it stores, one for each uploaded source file, and the
receipts it gives for uploads.
-/
import LocaleSync.Document.Json

namespace LocaleSync

open Document (Field Rules Value)

/-- How far a page is worked on in a language. -/
inductive PageStatus where
  | enabled
  | completed
  deriving DecidableEq, Repr

namespace PageStatus

/-- The name of a status. -/
def name : PageStatus → Text
  | .enabled => "enabled".toList
  | .completed => "completed".toList

/-- The status with this name. -/
def ofName? (t : Text) : Option PageStatus :=
  [enabled, completed].find? (·.name = t)

/-- The status a JSON document stands for. -/
def ofJson? (t : Text) : Option PageStatus := do
  ofName? (← (← Document.Json.parse? t).alternative? Document.Json.rules)

end PageStatus

/-- A source file stored in the remote project. -/
structure Page where
  id : Nat
  name : Text
  url : Text
  versionTag? : Option Text
  format : Text
  deriving DecidableEq, Repr

namespace Page

/-- The address, followed by the version tag in brackets if there is one. -/
def display (p : Page) : Text :=
  match p.versionTag? with
  | some tag => p.url ++ " [".toList ++ tag ++ "]".toList
  | none => p.url

/-- The fields of a page. -/
def fields : List Field :=
  [.required "page_id", .required "name", .required "url", .nullable "version_tag",
    .required "content_type_code"]

/-- The page a JSON document stands for. -/
def ofJson? (t : Text) : Option Page := do
  match ← (← Document.Json.parse? t).record? Document.Json.rules fields with
  | [some id, some name, some url, tag, some format] =>
    some
      { id := ← id.word?
        name := ← name.text?
        url := ← url.text?
        versionTag? := ← Value.nullable? Value.text? tag
        format := ← format.text? }
  | _ => none

end Page

/-- The answer to an upload: its name, and the version tags that files of that name already
have. -/
structure Receipt where
  uploadId : Text
  versionTags : List Text
  deriving DecidableEq, Repr

namespace Receipt

/-- The fields of a receipt. -/
def fields : List Field :=
  [.required "upload_id", .defaulted "version_tags"]

/-- The receipt a JSON document stands for. -/
def ofJson? (t : Text) : Option Receipt := do
  match ← (← Document.Json.parse? t).record? Document.Json.rules fields with
  | [some id, tags] =>
    some
      { uploadId := ← id.text?
        versionTags := ← Value.orDefault [] (Value.list? Value.text?) tags }
  | _ => none

end Receipt

end LocaleSync
