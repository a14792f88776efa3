/-
Reading arguments, from left to right. A flag is given by its word (`--config X`, `--config=X`) or
its letter (`-c X`, `-cX`, `-c=X`); letters of flags without value may be run together. After `--`
nothing is a flag. A word that is no flag and no value names the command or, within a command, a
file.

A value is checked when the next flag is met, and the flags of a scope are checked against each
other at its end; the flags before a command are checked after those behind it. A request for help
or for the version counts as soon as it is met.
-/
import LocaleSync.CommandLine.Help
import LocaleSync.Path

namespace LocaleSync.CommandLine

/-- Why no command is carried out. -/
inductive Stop where
  | usage
  | help (topic : Help.Topic)
  | version
  deriving DecidableEq, Repr

/-- What has been met and not yet checked. -/
inductive Held where
  | nothing
  | flag (f : Flag)
  | value (f : Flag) (t : Text)
  | files (ts : List Text)
  deriving DecidableEq, Repr

/-- What has been read in a scope. -/
structure Reading where
  given : List (Flag × Text) := []
  files : List Text := []
  held : Held := .nothing
  deriving DecidableEq, Repr

namespace Reading

/-- Whether a flag was given. -/
def has (r : Reading) (f : Flag) : Bool :=
  r.given.any (·.1 = f)

/-- The values a flag was given, in order. -/
def values (r : Reading) (f : Flag) : List Text :=
  (r.given.filter (·.1 = f)).map (·.2)

/-- A flag taken in with its value, empty if it takes none. A path must not be empty. -/
def take (r : Reading) (scope : Scope) (f : Flag) (t : Text) : Except Stop Reading :=
  if f = .help then .error (.help (.scope scope))
  else if f = .version then .error .version
  else if r.has f && !f.repeats then .error .usage
  else if f = .config && t = [] then .error .usage
  else .ok { r with given := r.given ++ [(f, t)] }

/-- What was held back, checked. -/
def settle (r : Reading) (scope : Scope) : Except Stop Reading :=
  let s := { r with held := .nothing }
  match r.held with
  | .nothing => .ok s
  | .flag _ => .error .usage
  | .value f t => s.take scope f t
  | .files ts => if ts.contains [] then .error .usage else .ok { s with files := s.files ++ ts }

/-- A flag met, with the value attached to it. -/
def meet (r : Reading) (scope : Scope) (f : Flag) (attached? : Option Text) :
    Except Stop Reading := do
  let r ← r.settle scope
  match f.value?, attached? with
  | none, none => r.take scope f []
  | none, some _ => throw .usage
  | some _, some t => r.take scope f t
  | some _, none => return { r with held := .flag f }

/-- A file met. -/
def meetFile (r : Reading) (scope : Scope) (t : Text) : Except Stop Reading := do
  if !scope.takesFiles then throw .usage
  match r.held with
  | .files ts => return { r with held := .files (ts ++ [t]) }
  | _ =>
    let r ← r.settle scope
    return { r with held := .files [t] }

/-- The letters of flags that stand together; what follows the letter of a flag with a value is
its value. -/
def meetLetters (scope : Scope) : Text → Reading → Except Stop Reading
  | [], r => .ok r
  | c :: rest, r =>
    match scope.ofShort? c with
    | none => .error .usage
    | some f =>
      if f.value?.isSome then
        r.meet scope f (match rest with
          | [] => none
          | '=' :: t => some t
          | t => some t)
      else do meetLetters scope rest (← r.meet scope f none)

/-- A flag given by its word, with or without a value behind `=`. -/
def meetWord (scope : Scope) (t : Text) (r : Reading) : Except Stop Reading :=
  match scope.ofLong? (Text.beforeFirst '=' t) with
  | none => .error .usage
  | some f => r.meet scope f (Text.afterFirst? '=' t)

/-- One argument that names no command. -/
def meetArgument (scope : Scope) (arg : Text) (r : Reading) : Except Stop Reading :=
  match arg with
  | '-' :: '-' :: word => meetWord scope word r
  | '-' :: c :: letters => meetLetters scope (c :: letters) r
  | t =>
    match r.held with
    | .flag f => .ok { r with held := .value f t }
    | _ => r.meetFile scope t

end Reading

/-- Arguments read in a scope, up to the command they name, if the scope is the program. -/
def scan (scope : Scope) : List Text → Reading →
    Except Stop (Reading × Option (Command × List Text))
  | [], r => .ok (r, none)
  | arg :: rest, r =>
    let waiting := match r.held with
      | .flag _ => true
      | _ => false
    match if scope = .program && !waiting then Command.ofName? arg else none with
    | some c => .ok (r, some (c, rest))
    | none =>
      if scope = .program && !waiting && arg = "help".toList then
        match Help.Topic.ofWords? rest with
        | some topic => .error (.help topic)
        | none => .error .usage
      else if arg = "--".toList then do
        return (← rest.foldlM (·.meetFile scope ·) r, none)
      else do scan scope rest (← r.meetArgument scope arg)

/-- What was read in a scope, checked to the end. -/
def finish (scope : Scope) (r : Reading) : Except Stop Reading := do
  let r ← r.settle scope
  if r.has .verbose && r.has .quiet then throw .usage
  if scope = .command .targets && !r.has .name then throw .usage
  return r

/-- What is to be done. -/
inductive Request where
  | ls (files : List Path) (skipUnsupported : Bool)
  | targets (name : Text) (languages : List Text)
  | check
  deriving DecidableEq, Repr

/-- The request of a command with what was read for it. -/
def Request.ofReading : Command → Reading → Request
  | .ls, r => .ls (r.files.map Path.mk) (r.has .skipUnsupported)
  | .targets, r => .targets ((r.values .name).headD []) (r.values .language)
  | .check, _ => .check

/-- What the program is asked to do. -/
structure Invocation where
  config? : Option Path
  verbose : Bool
  quiet : Bool
  request : Request
  deriving DecidableEq, Repr

/-- What arguments ask for. A path to settings behind the command counts before one in front of
it. -/
def parse (args : List Text) : Except Stop Invocation := do
  match ← scan .program args {} with
  | (_, none) => throw .usage
  | (front, some (command, rest)) =>
    let (behind, _) ← scan (.command command) rest {}
    let behind ← finish (.command command) behind
    let front ← finish .program front
    return {
      config? := ((behind.values .config ++ front.values .config).head?).map Path.mk
      verbose := front.has .verbose || behind.has .verbose
      quiet := front.has .quiet || behind.has .quiet
      request := .ofReading command behind }

end LocaleSync.CommandLine
