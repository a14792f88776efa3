/-
Text as a list of characters, and the cuts the rest of the library makes in it: at every
separator (`splitOn`), at the first one (`afterFirst?`) and at the last one (`afterLast?`).
Characters are ordered by code point, which is also the order of their UTF-8 bytes, so `sort`
puts texts in byte order.
-/

namespace LocaleSync

/-- Text, character by character. -/
abbrev Text := List Char

namespace Text

/-- The pieces between the separators, at least one. -/
def splitOn (sep : Char) : Text → List Text
  | [] => [[]]
  | c :: cs =>
    if c = sep then [] :: splitOn sep cs
    else
      match splitOn sep cs with
      | [] => [[c]]
      | piece :: pieces => (c :: piece) :: pieces

/-- The pieces with `sep` between each two. -/
def joinWith (sep : Text) : List Text → Text
  | [] => []
  | [piece] => piece
  | piece :: pieces => piece ++ sep ++ joinWith sep pieces

/-- What stands before the first `sep`, or the whole text without one. -/
def beforeFirst (sep : Char) (t : Text) : Text :=
  t.takeWhile (· != sep)

/-- What stands after the first `sep`. -/
def afterFirst? (sep : Char) : Text → Option Text
  | [] => none
  | c :: cs => if c = sep then some cs else afterFirst? sep cs

/-- What stands after the last `sep`. -/
def afterLast? (sep : Char) : Text → Option Text
  | [] => none
  | c :: cs =>
    match afterLast? sep cs with
    | some rest => some rest
    | none => if c = sep then some cs else none

/-- Every `a` written as `b`. -/
def replaceChar (a b : Char) (t : Text) : Text :=
  t.map fun c => if c = a then b else c

/-- The number of bytes the text takes in UTF-8. -/
def utf8Size (t : Text) : Nat :=
  t.foldr (fun c n => c.utf8Size + n) 0

/-- Byte order, least first. -/
def sort (ts : List Text) : List Text :=
  ts.mergeSort fun a b => !decide (b < a)

/-- The decimal digits of a number. -/
def ofNat (n : Nat) : Text :=
  Nat.toDigits 10 n

end Text

end LocaleSync
