/-
Carrying out commands on a storage. What a command shows before it fails stays shown.
-/
import LocaleSync.CommandLine.Arguments
import LocaleSync.Config.Load
import LocaleSync.Pull
import LocaleSync.Push

namespace LocaleSync.CommandLine

/-- What a run of the program gives: its exit code, what it shows, the notes it makes and the
error it ends with. -/
structure Response where
  exit : Nat
  output : Text := []
  notes : List Note := []
  error? : Option Error := none
  deriving DecidableEq, Repr

namespace Response

/-- A run that ended well. -/
def success (output : Text) : Response :=
  { exit := 0, output }

/-- A run that ended with an error. -/
def failure (output : Text) (e : Error) : Response :=
  { exit := 1, output, error? := some e }

/-- A run with the notes it made. -/
def withNotes (r : Response) (notes : List Note) : Response :=
  { r with notes }

/-- A run that carried out no command. -/
def stopped : Stop → Response
  | .usage => { exit := 2 }
  | .help topic => success topic.page.render
  | .version => success (line (programName ++ ' ' :: programVersion))

end Response

/-! ## Projects -/

/-- Where the settings are looked for: where they are said to be, or in the current
directory. -/
def configPath (s : Storage) (config? : Option Path) : Path :=
  config?.getD (s.current.path.join (.ofString Config.fileName))

/-- The directory of the project whose settings are at a path. -/
def projectDirectory (s : Storage) (p : Path) : Path :=
  if s.isDirectory p then p
  else (p.parent?.filter (·.text ≠ [])).getD (.ofString ".")

/-- The directory and the settings of the project. -/
def loadProject (s : Storage) (config? : Option Path) : Except Error (Path × Config) := do
  let path := configPath s config?
  let c ← Config.load s path
  return (projectDirectory s path, c)

/-- The text of a pull pattern. -/
def patternText (p? : Option PullPattern) : Text :=
  (p?.getD .standard).raw

/-! ## Commands -/

/-- A plan as it is shown. -/
def showPlan (p : Push.Plan) : Text :=
  (p.items.flatMap fun i =>
    line ("  ".toList ++ Text.joinWith [' ']
      [i.file.posix, i.file.language.code, i.format, i.uniqueName])) ++
  (p.skipped.flatMap fun (f, e) =>
    line ("  skip ".toList ++ f.posix ++ ' ' :: e.message)) ++
  '\n' :: line (Text.ofNat p.items.length ++ " file(s) to push, ".toList ++
    Text.ofNat p.skipped.length ++ " skipped".toList)

/-- The files that would be pushed. -/
def ls (s : Storage) (config? : Option Path) (files : List Path) (skipUnsupported : Bool) :
    Response :=
  match loadProject s config? with
  | .error e => .failure [] e
  | .ok (curdir, c) =>
    match (Push.plan s curdir c c.registry c.formatTable files skipUnsupported).run.run [] with
    | (.ok plan, notes) => (Response.success (showPlan plan)).withNotes notes
    | (.error e, notes) => (Response.failure [] e).withNotes notes

/-- A destination as it is shown. -/
def showDestination (s : Storage) (f : LocaleFile) : Text :=
  line ("  ".toList ++ padded 8 f.language.code ++ ' ' :: f.posix ++
    (if s.isPresent f.fullPath then " exists" else " new").toList)

/-- The languages and the patterns of a pull. -/
def pullScope (c : Config) (languages : List Text) :
    Except Error (List Language × List (Option PullPattern)) := do
  let r := c.registry
  let destination ← c.destinationLanguages r
  let selected ← Pull.selectLanguages r languages destination
  return (selected, ← c.compiledPullPatterns)

/-- The files that a file of this name would be written to, for each pattern. -/
def destinations (curdir : Path) (name : Text) (languages : List Language)
    (patterns : List (Option PullPattern)) :
    Except Error (List (Option PullPattern × List LocaleFile)) :=
  patterns.mapM fun pattern? => do
    let files ← languages.mapM fun l =>
      PullPattern.resolve curdir l (pattern?.map (·.raw)) (some name)
    return (pattern?, files)

/-- The files that a file of this name would be written to in the project. -/
def findTargets (s : Storage) (config? : Option Path) (name : Text) (languages : List Text) :
    Except Error (List (Option PullPattern × List LocaleFile)) := do
  let (curdir, c) ← loadProject s config?
  let (selected, patterns) ← pullScope c languages
  destinations curdir name selected patterns

/-- Where a file of this name would be written in each language. -/
def targets (s : Storage) (config? : Option Path) (name : Text) (languages : List Text) :
    Response :=
  match findTargets s config? name languages with
  | .error e => .failure [] e
  | .ok found =>
    .success (found.flatMap fun (pattern?, files) =>
      line ("==> ".toList ++ patternText pattern?) ++ files.flatMap (showDestination s))

/-- What is missing from settings that are valid. -/
def warnings (c : Config) (token? : Option Text) : List Text :=
  (if c.pushPattern?.isNone then ["No [push] pattern configured".toList] else []) ++
  (if c.languages.isEmpty then ["No [[languages]] cached".toList] else []) ++
  (if c.sourceLanguage?.isNone then ["No source_language in [project]".toList] else []) ++
  (if token?.isNone then ["No access token configured".toList] else [])

/-- The settings as they are shown. -/
def showConfig (curdir : Path) (c : Config) (patterns : List (Option PullPattern)) : Text :=
  line ("Checking project at ".toList ++ curdir.text) ++
  line ("  Project: ".toList ++ Text.ofNat c.projectId ++ " (organization ".toList ++
    Text.ofNat c.organizationId ++ ")".toList) ++
  line ("  Push pattern: ".toList ++ c.pushPattern?.getD "(none)".toList) ++
  (patterns.flatMap fun p? => line ("  Pull pattern: ".toList ++ patternText p?)) ++
  line ("  Languages: ".toList ++ Text.ofNat c.languages.length) ++
  line ("  Formats: ".toList ++ Text.joinWith ", ".toList (c.formatTable.formats.map (·.code)))

/-- The warnings as they are shown. -/
def showWarnings (ws : List Text) : Text :=
  if ws.isEmpty then []
  else '\n' :: line "Warnings:".toList ++ ws.flatMap fun w => line ("  ⚠ ".toList ++ w)

/-- Whether the settings are valid, and what is missing from them. -/
def check (s : Storage) (env : Environment) (config? : Option Path) : Response :=
  match do
    let (curdir, c) ← loadProject s config?
    return (curdir, c, ← c.compiledPullPatterns) with
  | .error e => .failure [] e
  | .ok (curdir, c, patterns) =>
    let shown := showConfig curdir c patterns
    match c.accessToken env s with
    | .error e => .failure shown e
    | .ok token? =>
      .success (shown ++ showWarnings (warnings c token?) ++
        '\n' :: line "✓ Config is valid!".toList)

/-- What the program answers to arguments. -/
def run (s : Storage) (env : Environment) (args : List Text) : Response :=
  match parse args with
  | .error stop => .stopped stop
  | .ok i =>
    match i.request with
    | .ls files skipUnsupported => ls s i.config? files skipUnsupported
    | .targets name languages => targets s i.config? name languages
    | .check => check s env i.config?

end LocaleSync.CommandLine
