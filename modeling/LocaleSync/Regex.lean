/-
Regular expressions, as far as patterns use them: the two anchors, single characters, `\w`, `+` and
counts behind a single character, and groups with or without a name. `parse?` reads an expression
and refuses whatever else the syntax has. Letter case is ignored where a text is matched.

`search?` finds the match that starts leftmost and gives each repetition, from left to right, as
much as it can have. It is found from the end of the expression back to its start, for every suffix
of the text at once (`table`), so the work stays within the product of the two lengths.
-/
import LocaleSync.Text.Basic

namespace LocaleSync

/-- A letter, digit or underscore of ASCII. -/
def isWord (c : Char) : Bool :=
  c.isAlphanum || c == '_'

/-- What a single character of a text is matched against. -/
inductive CharKind where
  | literal (c : Char)
  | word
  deriving DecidableEq, Repr

/-- Whether a character is of the kind. -/
def CharKind.takes : CharKind → Char → Bool
  | .literal a, c => a.toLower = c.toLower
  | .word, c => isWord c

/-- A regular expression. -/
inductive Regex where
  /-- Nothing. -/
  | empty
  /-- The start of the text. -/
  | start
  /-- The end of the text. -/
  | stop
  /-- One character. -/
  | one (k : CharKind)
  /-- One character or more, as many as there can be. -/
  | many (k : CharKind)
  /-- One expression and then another. -/
  | seq (r s : Regex)
  /-- A group with a name. -/
  | capture (name : Text) (r : Regex)
  deriving DecidableEq, Repr

namespace Regex

/-- Expressions one after another. -/
def concat (rs : List Regex) : Regex :=
  rs.foldr seq empty

/-! ## Spelling -/

/-- Whether a character has a meaning in expressions. -/
def isMeta (c : Char) : Bool :=
  "\\.+*?()|[]\x7b\x7d^$#&-~".toList.contains c

/-- Text with a backslash before every character that has a meaning. -/
def escape (t : Text) : Text :=
  t.flatMap fun c => if isMeta c then ['\\', c] else [c]

/-! ## Reading -/

/-- Whether a character stands for something else outside of groups' names and counts. -/
def isOperator (c : Char) : Bool :=
  "\\.+*?()|[\x7b^$".toList.contains c

/-- Whether a backslash may stand before a character to take its meaning away. -/
def isEscapable (c : Char) : Bool :=
  c.toNat < 128 && !c.isAlphanum && c != '<' && c != '>'

/-- Whether a group may have the name. -/
def isGroupName : Text → Bool
  | [] => false
  | c :: t => isWord c && !c.isDigit && t.all isWord

/-- What the next character belongs to. -/
inductive Mode where
  /-- Anything may start here. -/
  | plain
  /-- Behind a backslash. -/
  | escaped
  /-- Behind `(`. -/
  | opened
  /-- Behind `(?`. -/
  | marked
  /-- Behind `(?P`. -/
  | labelled
  /-- In the name of a group. -/
  | naming (name : Text)
  /-- In a count, with the number that its digits make so far. -/
  | counting (n? : Option Nat)
  deriving DecidableEq, Repr

/-- A group that is not closed yet: its name, and what stands before it, the last first. -/
structure OpenGroup where
  name? : Option Text
  before : List Regex
  deriving DecidableEq, Repr

/-- What has been read of an expression: in the innermost group, the last first, the groups around
it, innermost first, and the names used. -/
structure Reader where
  mode : Mode := .plain
  items : List Regex := []
  outer : List OpenGroup := []
  names : List Text := []
  deriving DecidableEq, Repr

namespace Reader

/-- One more expression read. -/
def put (s : Reader) (r : Regex) : Reader :=
  { s with mode := .plain, items := r :: s.items }

/-- A group opened. -/
def enter (s : Reader) (name? : Option Text) : Reader :=
  { s with mode := .plain, items := [], outer := ⟨name?, s.items⟩ :: s.outer }

/-- A group with a name opened; no two groups may have the same one. -/
def enterNamed? (s : Reader) (name : Text) : Option Reader :=
  if isGroupName name && !s.names.contains name then
    some { s.enter (some name) with names := name :: s.names }
  else none

/-- The innermost group closed. -/
def leave? (s : Reader) : Option Reader :=
  match s.outer with
  | [] => none
  | g :: outer =>
    let body := concat s.items.reverse
    let group := match g.name? with
      | some name => capture name body
      | none => body
    some { s with mode := .plain, items := group :: g.before, outer }

/-- What was read last, a single character, repeated. -/
def repeat? (s : Reader) (copies : CharKind → List Regex) : Option Reader :=
  match s.items with
  | .one k :: items => some { s with mode := .plain, items := copies k ++ items }
  | _ => none

/-- A character that stands for something else read. -/
def operator? (s : Reader) (c : Char) : Option Reader :=
  if c = '\\' then some { s with mode := .escaped }
  else if c = '^' then some (s.put .start)
  else if c = '$' then some (s.put .stop)
  else if c = '(' then some { s with mode := .opened }
  else if c = ')' then s.leave?
  else if c = '+' then s.repeat? fun k => [.many k]
  else if c = '\x7b' then some { s with mode := .counting none }
  else none

/-- A character of a count read. -/
def count? (s : Reader) (n? : Option Nat) (c : Char) : Option Reader :=
  if c.isDigit then
    some { s with mode := .counting (some (10 * n?.getD 0 + (c.toNat - '0'.toNat))) }
  else if c = '\x7d' then n?.bind fun n => s.repeat? fun k => List.replicate n (.one k)
  else none

/-- One more character read. -/
def step? (s : Reader) (c : Char) : Option Reader :=
  match s.mode with
  | .plain => if isOperator c then s.operator? c else some (s.put (.one (.literal c)))
  | .escaped =>
    if c = 'w' then some (s.put (.one .word))
    else if isEscapable c then some (s.put (.one (.literal c)))
    else none
  | .opened => if c = '?' then some { s with mode := .marked } else none
  | .marked =>
    if c = ':' then some (s.enter none)
    else if c = 'P' then some { s with mode := .labelled }
    else none
  | .labelled => if c = '<' then some { s with mode := .naming [] } else none
  | .naming name =>
    if c = '>' then s.enterNamed? name else some { s with mode := .naming (name ++ [c]) }
  | .counting n? => s.count? n? c

/-- The expression that has been read, if nothing is left open. -/
def result? (s : Reader) : Option Regex :=
  match s.mode, s.outer with
  | .plain, [] => some (concat s.items.reverse)
  | _, _ => none

end Reader

/-- The expression that a text spells. -/
def parse? (e : Text) : Option Regex :=
  (e.foldlM Reader.step? {}).bind Reader.result?

/-! ## Matching -/

/-- A mark in a match: a character of the text, or where a group opens or closes. -/
inductive Mark where
  | char (c : Char)
  | opens (name : Text)
  | closes
  deriving DecidableEq, Repr

/-- The characters up to the mark that closes the group `depth` levels out. -/
def inside : (depth : Nat) → List Mark → Text
  | _, [] => []
  | depth, .char c :: marks => c :: inside depth marks
  | depth, .opens _ :: marks => inside (depth + 1) marks
  | 0, .closes :: _ => []
  | depth + 1, .closes :: marks => inside depth marks

/-- What the group of a name has matched. -/
def group? (name : Text) : List Mark → Option Text
  | [] => none
  | .opens other :: marks => if other = name then some (inside 0 marks) else group? name marks
  | _ :: marks => group? name marks

/-- For each suffix of a text, the text first, what is matched from there on, if anything is. -/
abbrev Table := List (Option (List Mark))

namespace Table

/-- What is matched from the first place on. -/
def first (next : Table) : Option (List Mark) :=
  next.head?.join

/-- Everywhere nothing is left to match. -/
def done : Text → Table
  | [] => [some []]
  | _ :: t => some [] :: done t

/-- Only at the start. -/
def atStart : Table → Table
  | [] => []
  | found :: next => found :: next.map fun _ => none

/-- Only at the end. -/
def atStop : Table → Table
  | [] => []
  | [found] => [found]
  | _ :: next => none :: atStop next

/-- One character, and on as `next` says. -/
def one (k : CharKind) : Text → (next : Table) → Table
  | [], _ => [none]
  | c :: t, next =>
    (if k.takes c then (first next.tail).map (.char c :: ·) else none) :: one k t next.tail

/-- Characters, as many as there can be, and on as `next` says. -/
def many (k : CharKind) : Text → (next : Table) → Table
  | [], _ => [none]
  | c :: t, next =>
    let longer := many k t next.tail
    (if k.takes c then ((first longer).or (first next.tail)).map (.char c :: ·) else none) :: longer

end Table

/-- What is matched from each place of a text on, by the expression and then as `next` says. -/
def table (t : Text) : Regex → (next : Table) → Table
  | .empty, next => next
  | .start, next => next.atStart
  | .stop, next => next.atStop
  | .one k, next => .one k t next
  | .many k, next => .many k t next
  | .seq r s, next => table t r (table t s next)
  | .capture name r, next =>
    (table t r (next.map (·.map (.closes :: ·)))).map (·.map (.opens name :: ·))

/-- The match in a text that is preferred. -/
def search? (r : Regex) (t : Text) : Option (List Mark) :=
  (table t r (.done t)).findSome? id

end Regex

end LocaleSync
