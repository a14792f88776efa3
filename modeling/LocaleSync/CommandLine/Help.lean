/-
Help pages: what something does, how it is used, and lists of what it takes. Every list has two
columns, of which the first is as wide as its longest item.
-/
import LocaleSync.CommandLine.Flag

namespace LocaleSync.CommandLine

/-- The name of the program. -/
def programName : Text :=
  "qor".toList

/-- The version of the program. -/
def programVersion : Text :=
  "0.1.0".toList

/-- A line of text. -/
def line (t : Text) : Text :=
  t ++ ['\n']

/-- The text with blanks up to a width. -/
def padded (width : Nat) (t : Text) : Text :=
  t ++ List.replicate (width - t.length) ' '

namespace Help

/-- A list with its title, of names and what they stand for. -/
structure Listing where
  title : Text
  rows : List (Text × Text)
  deriving DecidableEq, Repr

/-- A help page. -/
structure Page where
  about : Text
  usage : Text
  lists : List Listing
  deriving DecidableEq, Repr

/-- A list as it is shown. -/
def Listing.render (l : Listing) : Text :=
  let width := (l.rows.map (·.1.length)).foldl max 0
  '\n' :: line (l.title ++ [':']) ++
    l.rows.flatMap fun (item, about) =>
      line ("  ".toList ++ padded width item ++ "  ".toList ++ about)

/-- A page as it is shown. -/
def Page.render (p : Page) : Text :=
  line p.about ++ '\n' :: line ("Usage: ".toList ++ programName ++ p.usage) ++
    p.lists.flatMap Listing.render

/-- A flag with its letter, its word and its value. -/
def flagName (f : Flag) : Text :=
  let short := match f.short? with
    | some c => ['-', c, ',', ' ']
    | none => "    ".toList
  let value := match f.value? with
    | some v => " <".toList ++ v ++ ">".toList
    | none => []
  short ++ "--".toList ++ f.long ++ value

/-- The list of a scope's flags. -/
def flags (s : Scope) : Listing :=
  ⟨"Options".toList, s.flags.map fun f => (flagName f, f.about)⟩

/-- What the command for help does. -/
def helpAbout : Text :=
  "Print this message or the help of the given subcommand(s)".toList

/-- What a help page can be about: a scope, or help itself. -/
inductive Topic where
  | scope (s : Scope)
  | help
  deriving DecidableEq, Repr

/-- The page about a topic. -/
def Topic.page : Topic → Page
  | .scope .program =>
    { about := "Push source files to and pull translations from a Qordoba project".toList
      usage := " [OPTIONS] <COMMAND>".toList
      lists :=
        [⟨"Commands".toList, Command.all.map (fun c => (c.name, c.about)) ++
          [("help".toList, helpAbout)]⟩, flags .program] }
  | .scope (.command .ls) =>
    { about := Command.ls.about
      usage := " ls [OPTIONS] [FILES]...".toList
      lists :=
        [⟨"Arguments".toList,
          [("[FILES]...".toList, "Files to push instead of the configured push pattern".toList)]⟩,
          flags (.command .ls)] }
  | .scope (.command .targets) =>
    { about := Command.targets.about
      usage := " targets [OPTIONS] --name <NAME>".toList
      lists := [flags (.command .targets)] }
  | .scope (.command .check) =>
    { about := Command.check.about
      usage := " check [OPTIONS]".toList
      lists := [flags (.command .check)] }
  | .help =>
    { about := helpAbout
      usage := " help [COMMAND]...".toList
      lists :=
        [⟨"Arguments".toList,
          [("[COMMAND]...".toList, "Print help for the subcommand(s)".toList)]⟩] }

/-- The topic that the words after the command for help name. -/
def Topic.ofWords? : List Text → Option Topic
  | [] => some (.scope .program)
  | [t] =>
    if t = "help".toList then some .help
    else (Command.ofName? t).map fun c => .scope (.command c)
  | _ => none

end Help

end LocaleSync.CommandLine
