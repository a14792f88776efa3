/-
Storage: a tree of directories, files, links and pipes, held as the entries at their locations.
A location lists names from the root directory on and goes through no link; how a path leads to a
location is the subject of `LocaleSync.Storage.Resolve`.
-/
import LocaleSync.Bytes
import LocaleSync.Path

namespace LocaleSync

/-- A place in storage: the names that lead to it from the root directory. -/
abbrev Location := List Text

/-- The path that spells a location. -/
def Location.path (l : Location) : Path :=
  ⟨'/' :: Text.joinWith ['/'] l⟩

/-- What can be at a location. -/
inductive Entry where
  | directory
  | file (content : Bytes)
  | link (target : Text)
  | pipe
  deriving DecidableEq

/-- A tree of entries, and the directory that relative paths start from. Of two entries at one
location the first counts. -/
structure Storage where
  entries : List (Location × Entry)
  current : Location := []
  deriving DecidableEq

namespace Storage

/-- The entry at a location. The root directory is always there. -/
def entryAt? (s : Storage) (l : Location) : Option Entry :=
  if l = [] then some .directory else (s.entries.find? (·.1 = l)).map (·.2)

/-- The name of a location within a directory, if it is directly inside. -/
def nameIn? (dir l : Location) : Option Text :=
  match l.getLast? with
  | some name => if l.dropLast = dir then some name else none
  | none => none

/-- The names in a directory, in byte order. -/
def names (s : Storage) (dir : Location) : List Text :=
  Text.sort (s.entries.filterMap fun (l, _) => nameIn? dir l).eraseDups

/-- The storage with an entry at a location, in place of what was there. -/
def put (s : Storage) (l : Location) (e : Entry) : Storage :=
  { s with entries := (l, e) :: s.entries.filter (·.1 ≠ l) }

/-- The storage without the entry at a location. -/
def erase (s : Storage) (l : Location) : Storage :=
  { s with entries := s.entries.filter (·.1 ≠ l) }

end Storage

end LocaleSync
