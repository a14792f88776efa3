/-
The commands of the program and the flags they take. A scope is the program itself, before a
command is named, or a command; each scope has its own flags, and those of the program are known
in every scope.
-/
import LocaleSync.Text.Basic

namespace LocaleSync.CommandLine

/-- A command. -/
inductive Command where
  | ls
  | targets
  | check
  deriving DecidableEq, Repr

namespace Command

/-- The commands in the order they are listed. -/
def all : List Command :=
  [ls, targets, check]

/-- The name of a command. -/
def name : Command → Text
  | .ls => "ls".toList
  | .targets => "targets".toList
  | .check => "check".toList

/-- What a command does. -/
def about : Command → Text
  | .ls => "List the local files that would be pushed".toList
  | .targets => "Show where pulled translations of a source file would be written".toList
  | .check => "Validate the project config and its patterns".toList

/-- The command with this name. -/
def ofName? (t : Text) : Option Command :=
  all.find? (·.name = t)

end Command

/-- A flag. -/
inductive Flag where
  | config
  | verbose
  | quiet
  | skipUnsupported
  | name
  | language
  | help
  | version
  deriving DecidableEq, Repr

namespace Flag

/-- The letter of a flag. -/
def short? : Flag → Option Char
  | .config => some 'c'
  | .verbose => some 'v'
  | .quiet => some 'q'
  | .skipUnsupported => none
  | .name => some 'n'
  | .language => some 'l'
  | .help => some 'h'
  | .version => some 'V'

/-- The word of a flag. -/
def long : Flag → Text
  | .config => "config".toList
  | .verbose => "verbose".toList
  | .quiet => "quiet".toList
  | .skipUnsupported => "skip-unsupported".toList
  | .name => "name".toList
  | .language => "language".toList
  | .help => "help".toList
  | .version => "version".toList

/-- What the value of a flag is called, if it takes one. -/
def value? : Flag → Option Text
  | .config => some "CONFIG".toList
  | .name => some "NAME".toList
  | .language => some "LANGUAGES".toList
  | _ => none

/-- What a flag does. -/
def about : Flag → Text
  | .config => "Path to .qordoba.toml (default: current directory)".toList
  | .verbose => "Show debug output".toList
  | .quiet => "Only show errors".toList
  | .skipUnsupported => "Skip files with an unsupported extension instead of failing".toList
  | .name => "Name of the source file in the project (e.g. strings.json)".toList
  | .language => "Destination languages (default: all)".toList
  | .help => "Print help".toList
  | .version => "Print version".toList

/-- Whether a flag may be given more than once. -/
def repeats : Flag → Bool
  | .language => true
  | _ => false

end Flag

/-- Where arguments are read. -/
inductive Scope where
  | program
  | command (c : Command)
  deriving DecidableEq, Repr

namespace Scope

/-- The flags of a scope in the order they are listed. -/
def flags : Scope → List Flag
  | .program => [.config, .verbose, .quiet, .help, .version]
  | .command .ls => [.config, .skipUnsupported, .verbose, .quiet, .help]
  | .command .targets => [.config, .name, .language, .verbose, .quiet, .help]
  | .command .check => [.config, .verbose, .quiet, .help]

/-- Whether the scope takes files besides flags. -/
def takesFiles : Scope → Bool
  | .command .ls => true
  | _ => false

/-- The flag with this letter. -/
def ofShort? (s : Scope) (c : Char) : Option Flag :=
  s.flags.find? (·.short? = some c)

/-- The flag with this word. -/
def ofLong? (s : Scope) (t : Text) : Option Flag :=
  s.flags.find? (·.long = t)

end Scope

end LocaleSync.CommandLine
