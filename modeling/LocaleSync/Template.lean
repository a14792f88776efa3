/-
Path templates: literal text and placeholders in turn. `segments` reads a template; a `<` that
starts no placeholder is literal text like any other character, and the longest stretches of
literal text are single segments. `text` writes segments out again. A pattern has to have one of
some placeholders (`having`).
-/
import LocaleSync.Error
import LocaleSync.Placeholder

namespace LocaleSync

/-- A piece of a template. -/
inductive Segment where
  | literal (text : Text)
  | placeholder (v : Placeholder)
  deriving DecidableEq, Repr

namespace Segment

/-- The segment as templates spell it. -/
def text : Segment → Text
  | .literal t => t
  | .placeholder v => v.token

/-- A character put before segments, onto the literal they start with if there is one. -/
def push (c : Char) : List Segment → List Segment
  | .literal t :: segs => .literal (c :: t) :: segs
  | segs => .literal [c] :: segs

end Segment

namespace Template

/-- The placeholder a text starts with. -/
def startsWith? (t : Text) : Option Placeholder :=
  Placeholder.all.find? fun v => v.token.isPrefixOf t

/-- The segments of a text after its first `skip` characters. -/
def segmentsAfter : (skip : Nat) → Text → List Segment
  | _, [] => []
  | skip + 1, _ :: cs => segmentsAfter skip cs
  | 0, c :: cs =>
    match startsWith? (c :: cs) with
    | some v => .placeholder v :: segmentsAfter v.label.length.succ cs
    | none => Segment.push c (segmentsAfter 0 cs)

/-- A template cut into literal text and placeholders. -/
def segments (t : Text) : List Segment :=
  segmentsAfter 0 t

/-- Segments written one after the other. -/
def text (segs : List Segment) : Text :=
  segs.flatMap Segment.text

/-- Whether a template has one of the placeholders. -/
def mentions (t : Text) (vs : List Placeholder) : Bool :=
  (segments t).any fun
    | .literal _ => false
    | .placeholder v => vs.contains v

/-- A template that has one of the placeholders; another one is refused. -/
def having (vs : List Placeholder) (t : Text) : Except Error { t : Text // mentions t vs = true } :=
  if h : mentions t vs = true then .ok ⟨t, h⟩
  else .error (.patternInvalid t (Placeholder.describe vs))

end Template

end LocaleSync
