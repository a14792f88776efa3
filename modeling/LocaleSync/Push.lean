/-
Pushing: files of the project are sent to the remote one. A plan lists the files with their
formats (`plan`); carrying it out (`execute`) uploads each file, or updates the page the file has
already.
-/
import LocaleSync.Config
import LocaleSync.Session

namespace LocaleSync

namespace Push

/-- A file to push, with its format and its name in the remote project. -/
structure Item where
  file : LocaleFile
  format : Text
  uniqueName : Text
  deriving DecidableEq, Repr

/-- The files to push, and the files left out with the reason. -/
structure Plan where
  items : List Item := []
  skipped : List (LocaleFile × Error) := []
  deriving DecidableEq, Repr

/-- The unique names of the files that were pushed. -/
structure Report where
  uploaded : List Text := []
  updated : List Text := []
  deriving DecidableEq, Repr

/-! ## Planning -/

/-- The files given, as files in the source language. -/
def ofPaths (curdir : Path) (source : Language) (paths : List Path) : List LocaleFile :=
  paths.map fun path =>
    { relative := (path.strip? curdir).getD path, language := source, root := curdir }

/-- The files that may be pushed: those given, or those that the push pattern recognizes. -/
def candidates (s : Storage) (curdir : Path) (c : Config) (r : Registry) (paths : List Path) :
    Reporting (List LocaleFile) := do
  if paths.isEmpty then
    let pattern ← (c.pushPattern : Except Error PushPattern)
    let found ← pattern.discover s curdir r
    if found.isEmpty then throw (.filesNotFound pattern.raw)
    return found
  else
    let source ← (c.sourceLanguage r : Except Error Language)
    return ofPaths curdir source paths

/-- The candidates with their formats. One without a format is left out, if that is asked for,
and otherwise ends the planning. -/
def sort (t : FormatTable) (skipUnsupported : Bool) : List LocaleFile → Reporting Plan
  | [] => return {}
  | file :: rest =>
    match t.resolve file with
    | .ok format => do
      let plan ← sort t skipUnsupported rest
      return { plan with items := ⟨file, format, file.uniqueName⟩ :: plan.items }
    | .error e =>
      if skipUnsupported then do
        Reporting.note [.warn ("Skipping ".toList ++ file.posix ++ ": ".toList ++ e.message)]
        let plan ← sort t skipUnsupported rest
        return { plan with skipped := (file, e) :: plan.skipped }
      else throw e

/-- The plan for the files given, or for those that the push pattern recognizes. -/
def plan (s : Storage) (curdir : Path) (c : Config) (r : Registry) (t : FormatTable)
    (paths : List Path) (skipUnsupported : Bool) : Reporting Plan := do
  sort t skipUnsupported (← candidates s curdir c r paths)

/-! ## Carrying out -/

/-- The first of the user's answers that is none of the existing tags. -/
def chooseTag (name : Text) (existing : List Text) : List (Except Error Text) → Session Text
  | [] => Session.call (.versionTag name existing) fun _ => .error .promptCancelled
  | answer :: rest => do
    modify fun w => { w with answers := { w.answers with tags := rest } }
    let tag ← Session.call (.versionTag name existing) fun _ => answer
    if existing.contains tag then chooseTag name existing rest else return tag

/-- A version tag that none of the existing ones is, if there are any. -/
def versionTag (name : Text) (existing : List Text) : Session (Option Text) := do
  if existing.isEmpty then return none
  Session.note (.info ("File `".toList ++ name ++ "` already exist with tags ".toList ++
    Text.joinWith ", ".toList existing ++ ". Please setup new version tag:".toList))
  let tag ← chooseTag name existing (← get).answers.tags
  return some tag

/-- A file uploaded and added to the project. -/
def upload (service : Service) (item : Item) (content : Bytes) : Session Unit := do
  Session.note (.info ("Uploading ".toList ++ item.file.posix))
  let receipt ← Session.call (.upload item.uniqueName item.format content)
    (service.upload · item.uniqueName item.format content)
  let tag? ← versionTag item.uniqueName receipt.versionTags
  Session.call (.append receipt.uploadId item.uniqueName tag?)
    (service.append · receipt.uploadId item.uniqueName tag?)
  Session.note (.info ("Uploaded ".toList ++ item.file.posix ++ " successfully as ".toList ++
    item.uniqueName))

/-- The page of a file given new content. -/
def update (service : Service) (item : Item) (page : Page) (content : Bytes) :
    Session Unit := do
  Session.note (.info ("Updating ".toList ++ item.uniqueName ++ " with ID(".toList ++
    Text.ofNat page.id ++ ")".toList))
  Session.call (.update page item.uniqueName content)
    (service.update · page item.uniqueName content)
  Session.note (.info ("Updated ".toList ++ item.uniqueName ++ " successfully.".toList))

/-- A file pushed; the answer is whether its page was updated. -/
def executeItem (service : Service) (target : Language) (updates : Bool) (item : Item) :
    Session Bool := do
  let content ← Session.read item.file
  let page? ← Session.call (.findPage target.id item.uniqueName)
    (service.findPage · target.id item.uniqueName)
  match page?, updates with
  | some page, true =>
    update service item page content
    return true
  | _, _ =>
    upload service item content
    return false

/-- The items of a plan pushed, one after another. -/
def executeItems (service : Service) (target : Language) (updates : Bool) :
    List Item → Session Report
  | [] => return {}
  | item :: rest => do
    let updated ← executeItem service target updates item
    let report ← executeItems service target updates rest
    if updated then return { report with updated := item.uniqueName :: report.updated }
    else return { report with uploaded := item.uniqueName :: report.uploaded }

/-- A plan carried out. A page that is there already gets the new content if `updates` is set;
otherwise the file is uploaded once more, under a new version tag if its name is taken. -/
def execute (service : Service) (p : Plan) (target : Language) (updates : Bool) :
    Session Report :=
  executeItems service target updates p.items

end Push

end LocaleSync
