/-
The remote project as pushing and pulling see it. What it answers may depend on all calls made
before (`history`), so a `Service` stands for every behaviour a remote project can have, failures
included.
-/
import LocaleSync.Bytes
import LocaleSync.Error
import LocaleSync.Format
import LocaleSync.LocaleFile
import LocaleSync.Page

namespace LocaleSync

/-- A call of the remote project, or a question to the user. -/
inductive Call where
  | findPage (languageId : Nat) (name : Text)
  | pages (languageId : Nat) (statuses : List PageStatus)
  | upload (name format : Text) (content : Bytes)
  | append (uploadId name : Text) (tag? : Option Text)
  | update (page : Page) (name : Text) (content : Bytes)
  | download (page : Page) (languageId : Nat)
  | formats
  | versionTag (name : Text) (existing : List Text)
  | conflictAction (file : LocaleFile)
  | fileName (file : LocaleFile)
  deriving DecidableEq

/-- A remote project: what it answers after a history of calls. -/
structure Service where
  /-- The page of a file in a language, by its unique name. -/
  findPage : (history : List Call) → (languageId : Nat) → (name : Text) →
    Except Error (Option Page)
  /-- The pages of a language with one of the statuses. -/
  pages : (history : List Call) → (languageId : Nat) → List PageStatus → Except Error (List Page)
  /-- Takes in the content of a file. -/
  upload : (history : List Call) → (name format : Text) → Bytes → Except Error Receipt
  /-- Adds an upload to the project. -/
  append : (history : List Call) → (uploadId name : Text) → (tag? : Option Text) → Except Error Unit
  /-- Replaces the content of a page. -/
  update : (history : List Call) → Page → (name : Text) → Bytes → Except Error Unit
  /-- The content of a page in a language. -/
  download : (history : List Call) → Page → (languageId : Nat) → Except Error Bytes
  /-- The formats of the project. -/
  formats : (history : List Call) → Except Error (List Format)

end LocaleSync
