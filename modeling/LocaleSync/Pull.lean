/-
Pulling: pages of the remote project are written as files. A plan lists the pages with the files
they go to (`plan`); carrying it out (`execute`) downloads each page, unless its file is there
already and is to be kept.
-/
import LocaleSync.Config
import LocaleSync.Session

namespace LocaleSync

namespace Pull

/-- What a pull is asked for. -/
structure Options where
  /-- Replace files that are there. -/
  force : Bool := false
  /-- Pull pages that are still worked on. -/
  inProgress : Bool := false
  /-- The version tag of the pages to pull. -/
  version? : Option Text := none
  /-- Pull only pages whose tagged name is the file name of the pattern. -/
  distinct : Bool := false
  /-- Pull pages of any extension. -/
  custom : Bool := false
  /-- What to do with files that are there, instead of asking. -/
  action? : Option ConflictAction := none
  deriving DecidableEq, Repr

/-- A page in a language and the file it goes to. -/
structure Target where
  page : Page
  language : Language
  destination : LocaleFile
  deriving DecidableEq, Repr

/-- The pages to pull. -/
structure Plan where
  targets : List Target
  deriving DecidableEq, Repr

/-- The files that were written and the files that were kept. -/
structure Report where
  downloaded : List LocaleFile := []
  skipped : List LocaleFile := []
  deriving DecidableEq, Repr

/-! ## Languages -/

/-- The first occurrences of the items. -/
def distinct {α : Type} [DecidableEq α] (xs : List α) : List α :=
  xs.foldl (fun seen x => if seen.contains x then seen else seen ++ [x]) []

/-- The languages requested, all of which must be among the destination languages by their
codes; without a request, the destination languages. -/
def selectLanguages (r : Registry) (requested : List Text) (destination : List Language) :
    Except Error (List Language) := do
  if requested.isEmpty then return destination
  let found ← requested.mapM r.get
  let configured (l : Language) : Bool := destination.any (·.code = l.code)
  let others := found.filter (!configured ·)
  if others.isEmpty then return distinct found
  else throw (.languagesNotConfigured (Text.sort (distinct (others.map (·.code)))))

/-! ## Planning -/

/-- The statuses of the pages to pull. -/
def Options.statuses (o : Options) : List PageStatus :=
  if o.inProgress then [.enabled] else [.completed]

/-- The name of a page with its version tag in front. -/
def taggedName (page : Page) : Text :=
  match page.versionTag? with
  | some tag => tag ++ '_' :: page.name
  | none => page.name

/-- Whether a page is one the pattern is for. The standard pattern takes every page. -/
def accepts (pattern? : Option PullPattern) (o : Options) (page : Page) : Bool :=
  match pattern? with
  | none => true
  | some p =>
    (o.custom || p.endsWithExtension || p.trailingExtension? = Path.extension? ⟨page.url⟩) &&
      (!o.distinct || taggedName page = p.fileName)

/-- The target of a page in a language. -/
def target (curdir : Path) (pattern? : Option PullPattern) (l : Language) (page : Page) :
    Except Error Target := do
  let destination ← PullPattern.resolve curdir l (pattern?.map (·.raw)) (some page.name)
  return { page, language := l, destination }

/-- The targets of pages in a language. -/
def targets (curdir : Path) (pattern? : Option PullPattern) (o : Options) (l : Language)
    (pages : List Page) : Except Error (List Target) :=
  (pages.filter fun page => page.versionTag? = o.version? && accepts pattern? o page).mapM
    (target curdir pattern? l)

/-- The targets of one pattern in one language. -/
def planOne (service : Service) (curdir : Path) (o : Options) (pattern? : Option PullPattern)
    (l : Language) : Session (List Target) := do
  let pages ← Session.call (.pages l.id o.statuses) (service.pages · l.id o.statuses)
  if pages.isEmpty then
    Session.note (.info ("Nothing to download for language `".toList ++ l.code ++
      "`. Check if your file translation status is `completed`.".toList))
  Session.ofExcept (targets curdir pattern? o l pages)

/-- The targets of patterns and languages, in order. -/
def planAll (service : Service) (curdir : Path) (o : Options) :
    List (Option PullPattern × Language) → Session (List Target)
  | [] => return []
  | (pattern?, l) :: rest => do
    let first ← planOne service curdir o pattern? l
    let others ← planAll service curdir o rest
    return first ++ others

/-- The plan for languages: for each pattern, the pages of each language. -/
def plan (service : Service) (curdir : Path) (languages : List Language)
    (patterns : List (Option PullPattern)) (o : Options) : Session Plan := do
  let targets ← planAll service curdir o
    (patterns.flatMap fun pattern? => languages.map (pattern?, ·))
  return ⟨targets⟩

/-! ## Carrying out -/

/-- What the user wants done with a file that is there. -/
def askAction (f : LocaleFile) : Session ConflictAction := do
  match (← get).answers.actions with
  | [] => Session.call (.conflictAction f) fun _ => .error .promptCancelled
  | answer :: rest => do
    modify fun w => { w with answers := { w.answers with actions := rest } }
    Session.call (.conflictAction f) fun _ => answer

/-- The file under the first of the user's names that is free. -/
def chooseName : List (Except Error Text) → LocaleFile → Session LocaleFile
  | [], f => do
    if ← Session.isPresent f then
      Session.call (.fileName f) fun _ => .error .promptCancelled
    else return f
  | answer :: rest, f => do
    if ← Session.isPresent f then
      modify fun w => { w with answers := { w.answers with names := rest } }
      let name ← Session.call (.fileName f) fun _ => answer
      chooseName rest (f.withName name)
    else return f

/-- The file to write: none if the one that is there is to be kept. -/
def settle (o : Options) (f : LocaleFile) : Session (Option LocaleFile) := do
  if !(← Session.isPresent f) || o.force then return some f
  Session.note (.warn ("Translation file already exists. `".toList ++ f.posix ++ "`".toList))
  let action ← match o.action? with
    | some action => pure action
    | none => askAction f
  match action with
  | .skip =>
    Session.note (.info ("Download translation file `".toList ++ f.posix ++
      "` was skipped.".toList))
    return none
  | .replace => return some f
  | .newName => return some (← chooseName (← get).answers.names f)

/-- A target pulled; the answer is the file that was written, none if it was kept. -/
def executeTarget (service : Service) (o : Options) (t : Target) :
    Session (Option LocaleFile) := do
  Session.note (.info ("Starting Download of translation file(s) for src `".toList ++
    t.page.display ++ "`, language `".toList ++ t.language.code ++ "`".toList))
  match ← settle o t.destination with
  | none => return none
  | some f =>
    let content ← Session.call (.download t.page t.language.id)
      (service.download · t.page t.language.id)
    Session.write f content
    Session.note (.info ("Downloaded translation file `".toList ++ f.posix ++ "` for src `".toList ++
      t.page.display ++ "` and language `".toList ++ t.language.code ++ "`".toList))
    return some f

/-- Targets pulled, one after another. -/
def executeTargets (service : Service) (o : Options) : List Target → Session Report
  | [] => return {}
  | t :: rest => do
    let written? ← executeTarget service o t
    let report ← executeTargets service o rest
    match written? with
    | some f => return { report with downloaded := f :: report.downloaded }
    | none => return { report with skipped := t.destination :: report.skipped }

/-- A plan carried out. -/
def execute (service : Service) (p : Plan) (o : Options) : Session Report :=
  executeTargets service o p.targets

end Pull

end LocaleSync
