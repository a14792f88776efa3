/-
Settings from storage. A project's settings are in a file of its directory, a user's in a file of
the user's configuration directory, and the access token is looked for in the environment, then
in the project's settings, then in the user's.
-/
import LocaleSync.Config.Document
import LocaleSync.Storage.Resolve

namespace LocaleSync

/-- The environment: variables and their values. -/
structure Environment where
  bindings : List (Text × Text)
  deriving DecidableEq, Repr

namespace Environment

/-- The value of a variable. -/
def get? (env : Environment) (name : String) : Option Text :=
  (env.bindings.find? (·.1 = name.toList)).map (·.2)

/-- The directory of the user's configuration: the one that is set, if that is an absolute path,
or the usual one in the home directory. -/
def configDirectory? (env : Environment) : Option Path :=
  match (env.get? "XDG_CONFIG_HOME").filter fun t => Path.isAbsolute ⟨t⟩ with
  | some t => some ⟨t⟩
  | none => do
    let home ← env.get? "HOME"
    if home = [] then none else some (Path.join ⟨home⟩ (.ofString ".config"))

end Environment

namespace UserConfig

/-- Where the user's settings are. -/
def path? (env : Environment) : Option Path :=
  env.configDirectory?.map fun dir => (dir.join (.ofString "qordoba")).join (.ofString "config.toml")

/-- The user's settings, if there are any. -/
def load (env : Environment) (s : Storage) : Except Error (Option UserConfig) :=
  match path? env with
  | none => .ok none
  | some path =>
    if s.isPresent path then
      match s.readText? path with
      | none => .error (.storage .readingUserConfig path)
      | some t =>
        match ofToml? t with
        | none => .error (.configMalformed path)
        | some u => .ok (some u)
    else .ok none

end UserConfig

namespace Config

/-- The name of the file that holds a project's settings. -/
def fileName : String :=
  ".qordoba.toml"

/-- The file of a project's settings, given by itself or by its directory. -/
def filePath (s : Storage) (p : Path) : Path :=
  if s.isDirectory p then p.join (.ofString fileName) else p

/-- The settings at a path, valid ones only. -/
def load (s : Storage) (p : Path) : Except Error Config := do
  let path := filePath s p
  if s.isPresent path then
    match s.readText? path with
    | none => throw (.storage .reading path)
    | some t =>
      match ofToml? t with
      | none => throw (.configMalformed path)
      | some c => do
        c.validate
        return c
  else throw (.configNotFound path)

/-- The access token. An empty one in the environment does not count. -/
def accessToken (c : Config) (env : Environment) (s : Storage) : Except Error (Option Text) :=
  match (env.get? "QORDOBA_ACCESS_TOKEN").filter (· ≠ []), c.accessToken? with
  | some token, _ => .ok (some token)
  | none, some token => .ok (some token)
  | none, none => (UserConfig.load env s).map fun u => u.bind (·.accessToken?)

end Config

end LocaleSync
