/-
Letter case by the full Unicode mappings. `upper` maps character by character, so a sharp s
becomes two letters. `lower` does the same except for a capital sigma, which turns into the final
form at the end of a word: after a cased letter and before none, case-ignorable characters left
out of account. `capitalized` raises the first character and lowers each of the others by itself.
-/
import LocaleSync.Text.CaseTable

namespace LocaleSync.Text

/-- The range of a table a code point belongs to. -/
def CaseRange.find? (table : List CaseRange) (n : Nat) : Option CaseRange :=
  table.find? fun r => r.first ≤ n && n ≤ r.last && (n - r.first) % r.stride == 0

/-- A character moved as its range says. -/
def CaseRange.apply (table : List CaseRange) (c : Char) : Char :=
  match find? table c.toNat with
  | some r => Char.ofNat (Int.toNat (c.toNat + r.offset))
  | none => c

/-- Whether a code point lies in one of the ranges. -/
def inRanges (ranges : List (Nat × Nat)) (c : Char) : Bool :=
  ranges.any fun r => r.1 ≤ c.toNat && c.toNat ≤ r.2

/-- Upper, lower or title case. -/
def isCased (c : Char) : Bool :=
  inRanges casedRanges c

/-- Passed over when a word's end is looked for. -/
def isCaseIgnorable (c : Char) : Bool :=
  inRanges caseIgnorableRanges c

/-- The lower case of one character on its own. -/
def lowerChar (c : Char) : Text :=
  if c = '\u0130' then ['i', '\u0307'] else [CaseRange.apply lowerRanges c]

/-- The upper case of one character. -/
def upperChar (c : Char) : Text :=
  match upperExpansions.find? fun e => e.1 == c.toNat with
  | some e => e.2.map Char.ofNat
  | none => [CaseRange.apply upperRanges c]

/-- Whether the first character that is not case-ignorable is cased. -/
def startsCased (t : Text) : Bool :=
  match t.dropWhile isCaseIgnorable with
  | [] => false
  | c :: _ => isCased c

/-- Lower case after the characters `seen`, the nearest first. -/
def lowerAfter (seen : Text) : Text → Text
  | [] => []
  | c :: cs =>
    (if c = '\u03A3' then
      [if startsCased seen && !startsCased cs then '\u03C2' else '\u03C3']
    else lowerChar c) ++ lowerAfter (c :: seen) cs

/-- The whole text in lower case. -/
def lower (t : Text) : Text :=
  lowerAfter [] t

/-- The whole text in upper case. -/
def upper (t : Text) : Text :=
  t.flatMap upperChar

/-- The first character in upper case, each other one in lower case. -/
def capitalized : Text → Text
  | [] => []
  | c :: cs => upperChar c ++ cs.flatMap lowerChar

end LocaleSync.Text
