/-
Push patterns: templates that recognize the files to push. A push pattern has a placeholder that
can be read back from a path (`compile`); its separators may be written `/` or `\`.

A pattern is matched by the regular expression that stands for it (`expressionOf`): anchored at both
ends, with a named group for the first `<language_code>` and the first `<language_lang_code>`, and
with every other character escaped where it has a meaning. `captures?` reads the values of the two
back from a path.
-/
import LocaleSync.Regex
import LocaleSync.Template

namespace LocaleSync

namespace PushPattern

/-- Text with `/` for both kinds of separator. -/
def slashed (t : Text) : Text :=
  Text.replaceChar '\\' '/' t

/-- The expression of the segments that follow the placeholders `named`. -/
def expressionAfter (named : List Placeholder) : List Segment → Text
  | [] => []
  | .literal t :: segs => Regex.escape t ++ expressionAfter named segs
  | .placeholder v :: segs =>
    match v.fragment? with
    | none => Regex.escape v.token ++ expressionAfter named segs
    | some fragment =>
      if named.contains v then
        "(?:".toList ++ fragment ++ [')'] ++ expressionAfter named segs
      else
        "(?P<".toList ++ v.label ++ ['>'] ++ fragment ++ [')'] ++
          expressionAfter (v :: named) segs

/-- The regular expression for the text of a pattern. -/
def expressionOf (raw : Text) : Text :=
  '^' :: expressionAfter [] (Template.segments (slashed raw)) ++ ['$']

end PushPattern

/-- A template with a placeholder that can be read back from a path, and the regular expression
that paths are matched against. -/
structure PushPattern where
  raw : Text
  valid : Template.mentions raw Placeholder.recoverable = true
  regex : Regex
  compiled : Regex.parse? (PushPattern.expressionOf raw) = some regex
  deriving DecidableEq

namespace PushPattern

/-- The pattern of a text. -/
def compile (raw : Text) : Except Error PushPattern := do
  let t ← Template.having Placeholder.recoverable raw
  match compiled : Regex.parse? (expressionOf t.val) with
  | some regex => return ⟨t.val, t.property, regex, compiled⟩
  | none => throw (.patternRegex raw)

/-- The segments paths are matched against. -/
def segments (p : PushPattern) : List Segment :=
  Template.segments (slashed p.raw)

/-- The regular expression of the pattern. -/
def expression (p : PushPattern) : Text :=
  expressionOf p.raw

/-- The values read back from a path, in the order of `Placeholder.recoverable`. -/
def captures? (p : PushPattern) (path : Text) : Option (List (Placeholder × Text)) :=
  (p.regex.search? (slashed path)).map fun found =>
    Placeholder.recoverable.filterMap fun v => (Regex.group? v.label found).map (v, ·)

/-- The values that may identify a language, in the order they are tried. -/
def languageTokens (values : List (Placeholder × Text)) : List Text :=
  (Placeholder.ofLanguage.filterMap fun v =>
    (values.find? (·.1 = v)).map (·.2)).filter (!·.isEmpty)

end PushPattern

end LocaleSync
