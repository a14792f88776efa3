/-
Where paths lead. A path is followed piece by piece; a link on the way is replaced by the pieces of
its target, at most `linkLimit` times, and `..` leaves the directory that has been reached. A piece
after the last one, empty or `.`, asks for a directory.

A path leads to an entry (`found`), to a free place in a directory (`vacant`), to nothing because
something on the way is not there (`missing`), or to nothing because something on the way stands
against it (`blocked`): a file in place of a directory, too many links, a name that is too long.

To use a path, it must be short enough itself (`locate`). To find its spelling without links, every
place on the way must have a short enough spelling, however long the path is (`canonical?`).
-/
import LocaleSync.Storage.Basic

namespace LocaleSync

namespace Storage

/-- The number of links that are followed on the way of one path. -/
def linkLimit : Nat :=
  40

/-- The greatest size of a name, in bytes. -/
def nameLimit : Nat :=
  255

/-- The size from which on a path is refused, in bytes. -/
def pathLimit : Nat :=
  4096

/-- What a path leads to. -/
inductive Target where
  | found (l : Location) (e : Entry) (linksLeft : Nat)
  | vacant (directory : Location) (name : Text)
  | missing
  | blocked
  deriving DecidableEq

/-- How a path is followed. -/
structure Manner where
  /-- Whether the last piece is followed if it is a link. -/
  followLast : Bool
  /-- Whether every place on the way is spelled out from the root directory. -/
  spelled : Bool
  deriving DecidableEq, Repr

namespace Manner

/-- To what is at the end. -/
def follow : Manner :=
  ⟨true, false⟩

/-- To the last piece itself. -/
def keep : Manner :=
  ⟨false, false⟩

/-- To what is at the end, by way of places that are spelled out. -/
def canonical : Manner :=
  ⟨true, true⟩

end Manner

/-- Whether the spelling of a location is short enough for a path. -/
def isSpellable (l : Location) : Bool :=
  Text.utf8Size l.path.text < pathLimit

/-- Whether the piece that leads from `here` to another place can be looked up. -/
def isAllowed (m : Manner) (here : Location) (piece : Text) : Bool :=
  Text.utf8Size piece ≤ nameLimit && (!m.spelled || isSpellable (here ++ [piece]))

/-- Where the target of a link in `here` starts. -/
def linkStart (here : Location) (target : Text) : Location :=
  if target.head? = some '/' then [] else here

/-- What pieces lead to from the directory `here`, where `jump` goes on behind a link. -/
def resolveWith (s : Storage) (m : Manner) (jump : Location → List Text → Target)
    (links : Nat) : (here : Location) → (pieces : List Text) → Target
  | here, [] => .found here .directory links
  | here, piece :: rest =>
    if Path.isVoid piece then resolveWith s m jump links here rest
    else if piece = ['.', '.'] then resolveWith s m jump links here.dropLast rest
    else if !isAllowed m here piece then .blocked
    else
      match s.entryAt? (here ++ [piece]) with
      | none => if rest = [] then .vacant here piece else .missing
      | some .directory => resolveWith s m jump links (here ++ [piece]) rest
      | some (.link target) =>
        if rest = [] && !m.followLast then .found (here ++ [piece]) (.link target) links
        else if target = [] then .missing
        else jump (linkStart here target) (Text.splitOn '/' target ++ rest)
      | some e => if rest = [] then .found (here ++ [piece]) e links else .blocked

/-- What pieces lead to from the directory `here` with at most `links` links on the way. -/
def resolve (s : Storage) (m : Manner) : (links : Nat) → Location → List Text → Target
  | 0 => resolveWith s m (fun _ _ => .blocked) 0
  | links + 1 => resolveWith s m (resolve s m links) (links + 1)

/-- Where a path starts. -/
def start (s : Storage) (p : Path) : Location :=
  if p.isAbsolute then [] else s.current

/-- What a path leads to. -/
def locate (s : Storage) (m : Manner) (p : Path) : Target :=
  if p.text = [] then .missing
  else if p.text.contains '\x00' || Text.utf8Size p.text ≥ pathLimit then .blocked
  else s.resolve m linkLimit (s.start p) (Text.splitOn '/' p.text)

/-- The location and the entry a path leads to, every link followed. -/
def find? (s : Storage) (p : Path) : Option (Location × Entry) :=
  match s.locate .follow p with
  | .found l e _ => some (l, e)
  | _ => none

/-- The location a path leads to by way of places that can be spelled out, and the entry
there. -/
def canonical? (s : Storage) (p : Path) : Option (Location × Entry) :=
  if p.text = [] || p.text.contains '\x00' then none
  else
    match s.resolve .canonical linkLimit (s.start p) (Text.splitOn '/' p.text) with
    | .found l e _ => some (l, e)
    | _ => none

/-- Whether a path leads to anything. -/
def isPresent (s : Storage) (p : Path) : Bool :=
  (s.find? p).isSome

/-- Whether a path leads to a directory. -/
def isDirectory (s : Storage) (p : Path) : Bool :=
  match s.find? p with
  | some (_, .directory) => true
  | _ => false

/-- The content of the file a path leads to. -/
def read? (s : Storage) (p : Path) : Option Bytes :=
  match s.find? p with
  | some (_, .file content) => some content
  | _ => none

/-- The content of the file a path leads to, as text. -/
def readText? (s : Storage) (p : Path) : Option Text :=
  (s.read? p).bind Bytes.text?

end Storage

end LocaleSync
