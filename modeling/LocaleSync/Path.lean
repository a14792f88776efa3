/-
Paths, kept exactly as they are spelled. Only `/` separates; a piece between two separators that
is empty or `.` names nothing, except a `.` at the very start (`components`). `join`, `parent?`
and `strip?` work on the spelling, so doubled separators in the middle of a path survive them.

`collapse` is the normal form of a destination: `.` is dropped and `..` takes back the component
before it, whatever that is.
-/
import LocaleSync.Text.Basic

namespace LocaleSync

/-- A path as it is spelled. -/
structure Path where
  text : Text
  deriving DecidableEq, Repr

/-- A step of a path. -/
inductive Component where
  | root
  | here
  | up
  | normal (name : Text)
  deriving DecidableEq, Repr

namespace Path

/-- The path of a string. -/
def ofString (s : String) : Path :=
  ⟨s.toList⟩

/-- Whether a piece between separators names no component. -/
def isVoid (piece : Text) : Bool :=
  piece = [] || piece = ['.']

/-- The component a piece names, anywhere but at the start of a path. -/
def component? (piece : Text) : Option Component :=
  if isVoid piece then none
  else if piece = ['.', '.'] then some .up
  else some (.normal piece)

/-- Whether the path starts at the root directory. -/
def isAbsolute (p : Path) : Bool :=
  p.text.head? = some '/'

/-- The steps of the path. -/
def components (p : Path) : List Component :=
  match Text.splitOn '/' p.text with
  | [] => []
  | first :: rest =>
    if p.isAbsolute then .root :: rest.filterMap component?
    else if first = ['.'] then .here :: rest.filterMap component?
    else (first :: rest).filterMap component?

/-- The names of the normal components. -/
def parts (p : Path) : List Text :=
  p.components.filterMap fun
    | .normal name => some name
    | _ => none

/-- The normal components with single separators. -/
def posix (p : Path) : Text :=
  Text.joinWith ['/'] p.parts

/-- The last component, if it is a normal one. -/
def fileName? (p : Path) : Option Text :=
  match p.components.getLast? with
  | some (.normal name) => some name
  | _ => none

/-- What follows the last dot of the file name; a leading dot does not count. -/
def extension? (p : Path) : Option Text := do
  let name ← p.fileName?
  let ext ← Text.afterLast? '.' name
  if ext.length + 1 < name.length then some ext else none

/-- Pieces without the void ones at the end. -/
def trimEnd (pieces : List Text) : List Text :=
  (pieces.reverse.dropWhile isVoid).reverse

/-- The spelling of a first piece and the pieces after it; alone, an empty first piece is the
root. -/
def spell (first : Text) (rest : List Text) : Path :=
  if first = [] && rest = [] then ⟨['/']⟩ else ⟨Text.joinWith ['/'] (first :: rest)⟩

/-- The path without its last component; none for the root and the empty path. -/
def parent? (p : Path) : Option Path :=
  match Text.splitOn '/' p.text with
  | [] => none
  | first :: rest =>
    match trimEnd rest with
    | [] => if first = [] then none else some ⟨[]⟩
    | body => some (spell first (trimEnd body.dropLast))

/-- `q` from `p` on; an absolute `q` stands for itself. -/
def join (p q : Path) : Path :=
  if q.isAbsolute then q
  else if p.text = [] || p.text.getLast? = some '/' then ⟨p.text ++ q.text⟩
  else ⟨p.text ++ '/' :: q.text⟩

/-- Pieces without the ones that spell the first `n` components. -/
def dropComponents : Nat → List Text → List Text
  | 0, pieces => pieces
  | n + 1, pieces => dropComponents n ((pieces.dropWhile isVoid).drop 1)

/-- What is left of `p` after the components of `base`, if it starts with them. -/
def strip? (p base : Path) : Option Path :=
  if base.components.isPrefixOf p.components then
    match Text.splitOn '/' p.text, base.components with
    | [], _ => some p
    | first :: rest, [] =>
      if first = [] && rest = [] then some p else some (spell first (trimEnd rest))
    | first :: rest, step :: steps =>
      let body := match step with
        | .root | .here => dropComponents steps.length rest
        | _ => dropComponents (steps.length + 1) (first :: rest)
      some ⟨Text.joinWith ['/'] (trimEnd (body.dropWhile isVoid))⟩
  else none

/-- A step taken on the names collected so far, the last one first. -/
def collapseStep (names : List Text) : Component → List Text
  | .root => []
  | .here => names
  | .up =>
    match names with
    | [] => [['.', '.']]
    | _ :: before => before
  | .normal name => name :: names

/-- The path without `.` and with every `..` taken back. -/
def collapse (p : Path) : Path :=
  let names := Text.joinWith ['/'] (p.components.foldl collapseStep []).reverse
  ⟨if p.isAbsolute then '/' :: names else names⟩

/-- The path as seen from `base` when it lies inside it, collapsed. -/
def relativeTo (p base : Path) : Path :=
  collapse (if p.isAbsolute then (p.strip? base).getD p else p)

end Path

end LocaleSync
