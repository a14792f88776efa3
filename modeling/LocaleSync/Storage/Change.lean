/-
Writing to storage. A file is written where its path leads, which may be behind a link and may be a
free place. Directories are made from the outermost one that is not there; those made before a
failure stay.
-/
import LocaleSync.Storage.Resolve

namespace LocaleSync

namespace Path

/-- The path and the paths it is in, at most `n`, the nearest first. -/
def upwards : (n : Nat) → Path → List Path
  | 0, _ => []
  | n + 1, p =>
    p :: match p.parent? with
      | none => []
      | some q => upwards n q

/-- The path and the paths it is in, the nearest first. Each is shorter than the one before. -/
def ancestors (p : Path) : List Path :=
  upwards (p.text.length + 1) p

end Path

namespace Storage

/-- The storage with a file at a path. -/
def write? (s : Storage) (p : Path) (content : Bytes) : Option Storage :=
  match s.locate .follow p with
  | .found l (.file _) _ => some (s.put l (.file content))
  | .vacant dir name => some (s.put (dir ++ [name]) (.file content))
  | _ => none

/-- The storage with a directory at each of the paths, of which each one is in the next, as far
as they could be made, and whether they all could. -/
def makeUpwards (s : Storage) : List Path → Storage × Bool
  | [] => (s, false)
  | p :: outer =>
    if p.text = [] then (s, true)
    else
      match s.locate .keep p with
      | .vacant dir name => (s.put (dir ++ [name]) .directory, true)
      | .missing =>
        match makeUpwards s outer with
        | (s, false) => (s, false)
        | (s, true) =>
          match s.locate .keep p with
          | .vacant dir name => (s.put (dir ++ [name]) .directory, true)
          | _ => (s, s.isDirectory p)
      | _ => (s, s.isDirectory p)

/-- The storage with a directory at a path and everything it is in, as far as they could be
made, and whether they all could. -/
def makeDirectories (s : Storage) (p : Path) : Storage × Bool :=
  s.makeUpwards p.ancestors

end Storage

end LocaleSync
