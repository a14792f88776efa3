/-
Sessions: activities on storage that call a remote project and ask the user. A session keeps what
it has done when it fails. The user's answers to come are given beforehand, so a session that asks
until it gets a good answer ends when they run out.
-/
import LocaleSync.ConflictAction
import LocaleSync.Discovery
import LocaleSync.Service
import LocaleSync.Storage.Change

namespace LocaleSync

/-- What the user will answer to each kind of question; an error is the user's refusal. -/
structure Answers where
  tags : List (Except Error Text) := []
  actions : List (Except Error ConflictAction) := []
  names : List (Except Error Text) := []

/-- What a session works on, and what it has called and said. -/
structure World where
  storage : Storage
  answers : Answers := {}
  calls : List Call := []
  notes : List Note := []

/-- An activity that may fail and leaves its changes behind. -/
abbrev Session := ExceptT Error (StateM World)

namespace Session

/-- A note made. -/
def note (n : Note) : Session Unit :=
  modify fun w => { w with notes := w.notes ++ [n] }

/-- An outcome as it is. -/
def ofExcept {α : Type} : Except Error α → Session α
  | .ok a => pure a
  | .error e => throw e

/-- A call made and recorded; `answer` gives what is answered after the calls before it. -/
def call {α : Type} (c : Call) (answer : List Call → Except Error α) : Session α := do
  let w ← get
  set { w with calls := w.calls ++ [c] }
  ofExcept (answer w.calls)

/-- An activity that only makes notes. -/
def report {α : Type} (r : Reporting α) : Session α := do
  let w ← get
  match r.run.run w.notes with
  | (result, notes) =>
    set { w with notes }
    ofExcept result

/-- A table of formats with those of the remote project put over it, if it has any. -/
def mergeFormats (service : Service) (t : FormatTable) : Session FormatTable := do
  let overrides ← call .formats service.formats
  return if overrides.isEmpty then t else t.merge overrides

/-- Whether a file is there. -/
def isPresent (f : LocaleFile) : Session Bool := do
  return (← get).storage.isPresent f.fullPath

/-- The content of a file. -/
def read (f : LocaleFile) : Session Bytes := do
  match (← get).storage.read? f.fullPath with
  | some content => return content
  | none => throw (.storage .reading f.fullPath)

/-- A file written, in a directory that is made if it is not there. -/
def write (f : LocaleFile) (content : Bytes) : Session Unit := do
  let path := f.fullPath
  if let some dir := path.parent? then
    let w ← get
    let (storage, made) := w.storage.makeDirectories dir
    set { w with storage }
    unless made do throw (.storage .creatingDirectory dir)
  let w ← get
  match w.storage.write? path content with
  | some storage => set { w with storage }
  | none => throw (.storage .writing path)

end Session

end LocaleSync
