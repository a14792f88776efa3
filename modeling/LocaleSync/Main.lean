/-
The program. It looks at the part of the file system that its arguments are about, carries them out
on that, and shows the answer.
-/
import LocaleSync.CommandLine.Run

namespace LocaleSync.Main

open CommandLine

/-- The path of a location, for the operating system. -/
def pathString (l : Location) : String :=
  String.ofList l.path.text

/-- What is at a location, a link not followed. -/
def kindAt? (l : Location) : IO (Option IO.FS.FileType) := do
  match l.getLast? with
  | none => return some .dir
  | some name =>
    let e : IO.FS.DirEntry := ⟨pathString l.dropLast, String.ofList name⟩
    try return some (← e.path.symlinkMetadata).type
    catch _ => return none

/-- The names that lead to where a link ends. -/
def linkEnd? (l : Location) : IO (Option (List Text)) := do
  try
    let real ← IO.FS.realPath (pathString l)
    return some (Path.parts ⟨real.toString.toList⟩)
  catch _ => return none

/-- The file at a location. One that cannot be read is there without content. -/
def fileAt (l : Location) : IO Entry := do
  try return .file (← IO.FS.readBinFile (pathString l)).toList
  catch _ => return .pipe

/-- The storage with what a path leads through, read from `here` on. -/
partial def record (s : Storage) (here : Location) : List Text → IO Storage
  | [] => return s
  | piece :: rest => do
    if Path.isVoid piece then record s here rest
    else if piece = ['.', '.'] then record s here.dropLast rest
    else
      let l := here ++ [piece]
      match ← kindAt? l with
      | none => return s
      | some .dir => record (s.put l .directory) l rest
      | some .file => return s.put l (← fileAt l)
      | some .other => return s.put l .pipe
      | some .symlink =>
        match ← linkEnd? l with
        | none => return s.put l (.link l.path.text)
        | some parts => record (s.put l (.link (Location.path parts).text)) [] (parts ++ rest)

/-- The storage with what a path leads through. -/
def recordPath (s : Storage) (p : Path) : IO Storage :=
  record s (if p.isAbsolute then [] else s.current) (Text.splitOn '/' p.text)

/-- The storage with everything below a directory, links followed. -/
partial def recordTree (s : Storage) (entered : List Location) (dir : Location) :
    IO (Storage × List Location) := do
  if entered.contains dir then return (s, entered)
  let root ← IO.FS.realPath (pathString dir)
  let mut state := (s, dir :: entered)
  for e in ← root.readDir do
    let l := dir ++ [e.fileName.toList]
    let (s, entered) := state
    match ← kindAt? l with
    | none => pure ()
    | some .dir => state ← recordTree (s.put l .directory) entered l
    | some .file => state := (s.put l (.file []), entered)
    | some .other => state := (s.put l .pipe, entered)
    | some .symlink =>
      let s ← record s dir [e.fileName.toList]
      match s.find? l.path with
      | some (target, .directory) => state ← recordTree s entered target
      | _ => state := (s, entered)
  return state

/-- The variables of the environment that matter. -/
def environment : IO Environment := do
  let mut bindings := []
  for name in ["HOME", "XDG_CONFIG_HOME", "QORDOBA_ACCESS_TOKEN"] do
    if let some value ← IO.getEnv name then
      bindings := bindings ++ [(name.toList, value.toList)]
  return ⟨bindings⟩

/-- The part of the file system that a request is about. -/
def look (env : Environment) (i : Invocation) (s : Storage) : IO Storage := do
  let path := configPath s i.config?
  let s ← recordPath s path
  let s ← recordPath s (Config.filePath s path)
  match i.request with
  | .ls [] _ =>
    match loadProject s i.config? with
    | .ok (dir, _) =>
      let s ← recordPath s dir
      match s.find? dir with
      | some (l, .directory) =>
        let (s, _) ← recordTree s [] l
        recordPath s (Config.filePath s path)
      | _ => return s
    | .error _ => return s
  | .ls _ _ => return s
  | .targets name languages =>
    match findTargets s i.config? name languages with
    | .ok found => (found.flatMap (·.2)).foldlM (fun s f => recordPath s f.fullPath) s
    | .error _ => return s
  | .check =>
    match UserConfig.path? env with
    | some p => recordPath s p
    | none => return s

/-- The start of a note. -/
def levelName : Level → String
  | .info => " INFO "
  | .warn => " WARN "

end LocaleSync.Main

open LocaleSync in
/-- The program. -/
def main (args : List String) : IO UInt32 := do
  let args := args.map String.toList
  let env ← Main.environment
  let current : Location := Path.parts ⟨(← IO.currentDir).toString.toList⟩
  let empty : Storage := ⟨[], current⟩
  let start ← Main.recordPath empty current.path
  let parsed := CommandLine.parse args
  let storage ← match parsed with
    | .ok i => Main.look env i start
    | .error _ => pure start
  let quiet := match parsed with
    | .ok i => i.quiet && !i.verbose
    | .error _ => false
  let r := CommandLine.run storage env args
  unless quiet do
    for n in r.notes do
      IO.eprintln (Main.levelName n.level ++ String.ofList n.text)
  IO.print (String.ofList r.output)
  if let some e := r.error? then
    IO.eprintln ("Error: " ++ String.ofList e.message)
    if let some help := e.help? then
      IO.eprintln ("  help: " ++ String.ofList help)
  else if r.exit = 2 then
    IO.eprint (String.ofList (CommandLine.Help.Topic.scope .program).page.render)
  return r.exit.toUInt32
