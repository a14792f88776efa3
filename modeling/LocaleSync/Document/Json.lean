/-
JSON documents. The grammar is the strict one: no trailing comma, no comment, no leading zero, no
control character in a string, and nothing but white space around the value.
-/
import LocaleSync.Document.Value

namespace LocaleSync.Document

namespace Json

/-- What JSON decides about records. -/
def rules : Rules where
  surplusItems := false
  emptyBody
    | .null => true
    | _ => false

/-- The white space of JSON. -/
def isSpace (c : Char) : Bool :=
  c == ' ' || c == '\n' || c == '\t' || c == '\r'

/-- Text from its first character that is no white space. -/
def skip (t : Text) : Text :=
  t.dropWhile isSpace

/-! ## Strings -/

/-- The value of a hexadecimal digit. -/
def hexDigit? (c : Char) : Option Nat :=
  if '0' ≤ c && c ≤ '9' then some (c.toNat - 0x30)
  else if 'a' ≤ c && c ≤ 'f' then some (c.toNat - 0x61 + 10)
  else if 'A' ≤ c && c ≤ 'F' then some (c.toNat - 0x41 + 10)
  else none

/-- The value of hexadecimal digits, the first one worth the most. -/
def hex? (digits : List Char) : Option Nat :=
  digits.foldlM (fun n c => (hexDigit? c).map (16 * n + ·)) 0

/-- The character a backslash and a letter stand for. -/
def escaped? : Char → Option Char
  | '"' => some '"'
  | '\\' => some '\\'
  | '/' => some '/'
  | 'b' => some '\x08'
  | 'f' => some '\x0c'
  | 'n' => some '\n'
  | 'r' => some '\r'
  | 't' => some '\t'
  | _ => none

/-- A piece of a string: a character, or a unit of 16 bits given by its number. -/
inductive Piece where
  | char (c : Char)
  | unit (n : Nat)

/-- The pieces of a string after its opening quote, and what follows the closing one. -/
def pieces? : Text → Option (List Piece × Text)
  | [] => none
  | '"' :: rest => some ([], rest)
  | '\\' :: 'u' :: a :: b :: c :: d :: rest => do
    let n ← hex? [a, b, c, d]
    let (ps, rest) ← pieces? rest
    some (.unit n :: ps, rest)
  | '\\' :: c :: rest => do
    let c ← escaped? c
    let (ps, rest) ← pieces? rest
    some (.char c :: ps, rest)
  | c :: rest => do
    if c.toNat < 0x20 || c == '\\' then none
    let (ps, rest) ← pieces? rest
    some (.char c :: ps, rest)

/-- The text of pieces; two units of a surrogate pair make one character. -/
def assemble? : List Piece → Option Text
  | [] => some []
  | .char c :: ps => (assemble? ps).map (c :: ·)
  | .unit h :: ps =>
    if 0xD800 ≤ h && h < 0xDC00 then
      match ps with
      | .unit l :: ps =>
        if 0xDC00 ≤ l && l < 0xE000 then
          (assemble? ps).map (Char.ofNat (0x10000 + (h - 0xD800) * 0x400 + (l - 0xDC00)) :: ·)
        else none
      | _ => none
    else if 0xDC00 ≤ h && h < 0xE000 then none
    else (assemble? ps).map (Char.ofNat h :: ·)

/-! ## Numbers -/

/-- Digits from the start of a text, at least one, and what follows them. -/
def digits? (t : Text) : Option (Text × Text) :=
  match t.span Char.isDigit with
  | ([], _) => none
  | cut => some cut

/-- The value of decimal digits. -/
def decimal (digits : Text) : Nat :=
  digits.foldl (fun n c => 10 * n + (c.toNat - 0x30)) 0

/-- An integer part: digits without a leading zero. -/
def integer? (t : Text) : Option (Text × Text) :=
  match t with
  | '0' :: rest => some (['0'], rest)
  | t => digits? t

/-- What follows an exponent, if there is one. -/
def exponent? : Text → Option (Bool × Text)
  | e :: rest =>
    if e == 'e' || e == 'E' then do
      let rest := match rest with
        | '+' :: rest => rest
        | '-' :: rest => rest
        | rest => rest
      let (_, rest) ← digits? rest
      some (true, rest)
    else some (false, e :: rest)
  | [] => some (false, [])

/-- What follows a fraction, if there is one. -/
def fraction? : Text → Option (Bool × Text)
  | '.' :: rest => (digits? rest).map fun (_, rest) => (true, rest)
  | rest => some (false, rest)

/-- A number. -/
def number? (t : Text) : Option (Value × Text) := do
  let (negative, t) := match t with
    | '-' :: t => (true, t)
    | t => (false, t)
  let (digits, t) ← integer? t
  let (fractional, t) ← fraction? t
  let (scaled, t) ← exponent? t
  if negative || fractional || scaled then some (.otherNumber, t)
  else some (.natural (decimal digits), t)

/-! ## Values -/

/-- A string after its opening quote. -/
def string? (t : Text) : Option (Option Text × Text) :=
  (pieces? t).map fun (ps, rest) => (assemble? ps, rest)

mutual

/-- A value and what follows it. `depth` bounds the work and is never reached. -/
def value? : (depth : Nat) → Text → Option (Value × Text)
  | 0, _ => none
  | depth + 1, t =>
    match skip t with
    | '"' :: t => (string? t).map fun
      | (some s, rest) => (.text s, rest)
      | (none, rest) => (.unpairedText, rest)
    | '[' :: t =>
      match skip t with
      | ']' :: rest => some (.list [], rest)
      | t => (list? depth t).map fun (vs, rest) => (.list vs, rest)
    | '\x7b' :: t =>
      match skip t with
      | '\x7d' :: rest => some (.table [], rest)
      | t => (table? depth t).map fun (es, rest) => (.table es, rest)
    | 'n' :: 'u' :: 'l' :: 'l' :: rest => some (.null, rest)
    | 't' :: 'r' :: 'u' :: 'e' :: rest => some (.bool true, rest)
    | 'f' :: 'a' :: 'l' :: 's' :: 'e' :: rest => some (.bool false, rest)
    | t => number? t

/-- The items of a list, at least one, up to its closing bracket. -/
def list? : (depth : Nat) → Text → Option (List Value × Text)
  | 0, _ => none
  | depth + 1, t => do
    let (v, rest) ← value? depth t
    match skip rest with
    | ',' :: rest =>
      let (vs, rest) ← list? depth rest
      some (v :: vs, rest)
    | ']' :: rest => some ([v], rest)
    | _ => none

/-- The entries of a table, at least one, up to its closing brace. -/
def table? : (depth : Nat) → Text → Option (List (Option Text × Value) × Text)
  | 0, _ => none
  | depth + 1, t =>
    match skip t with
    | '"' :: t => do
      let (key, rest) ← string? t
      match skip rest with
      | ':' :: rest =>
        let (v, rest) ← value? depth rest
        match skip rest with
        | ',' :: rest =>
          let (es, rest) ← table? depth rest
          some ((key, v) :: es, rest)
        | '\x7d' :: rest => some ([(key, v)], rest)
        | _ => none
      | _ => none
    | _ => none

end

/-- The value of a document. -/
def parse? (t : Text) : Option Value := do
  let (v, rest) ← value? (2 * t.length + 2) t
  if (skip rest).isEmpty then some v else none

end Json

end LocaleSync.Document
