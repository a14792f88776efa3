/-
The scalars of TOML: strings of four kinds, numbers, and dates with or without a time. Each
function reads its scalar from the start of a text and gives what follows; none of them looks
further than the scalar itself.
-/
import LocaleSync.Document.Json

namespace LocaleSync.Document.Toml

/-! ## Characters -/

/-- The white space within a line. -/
def isSpace (c : Char) : Bool :=
  c == ' ' || c == '\t'

/-- What a comment or a string may hold as it stands: a tab, a printable character of the basic
set, or any character beyond it. -/
def isPlain (c : Char) : Bool :=
  c == '\t' || ('\x20' ≤ c && c ≤ '\x7e') || '\x80' ≤ c

/-- Text from its first character that is no white space of a line. -/
def skip (t : Text) : Text :=
  t.dropWhile isSpace

/-- What follows a line end. -/
def newline? : Text → Option Text
  | '\n' :: rest => some rest
  | '\r' :: '\n' :: rest => some rest
  | _ => none

/-- What follows line ends and white space. -/
def skipBlankLines : Text → Text
  | '\r' :: '\n' :: rest => skipBlankLines rest
  | c :: rest => if isSpace c || c == '\n' then skipBlankLines rest else c :: rest
  | [] => []

/-! ## Strings -/

/-- The character of a number in hexadecimal digits. -/
def scalar? (digits : List Char) : Option Char := do
  let n ← Json.hex? digits
  if n.isValidChar then some (Char.ofNat n) else none

/-- The character of an escape sequence, given without its backslash, and what follows it. -/
def escaped? : Text → Option (Char × Text)
  | 'b' :: rest => some ('\x08', rest)
  | 'f' :: rest => some ('\x0c', rest)
  | 'n' :: rest => some ('\n', rest)
  | 'r' :: rest => some ('\r', rest)
  | 't' :: rest => some ('\t', rest)
  | '"' :: rest => some ('"', rest)
  | '\\' :: rest => some ('\\', rest)
  | 'u' :: rest =>
    if rest.length < 4 then none else (scalar? (rest.take 4)).map (·, rest.drop 4)
  | 'U' :: rest =>
    if rest.length < 8 then none else (scalar? (rest.take 8)).map (·, rest.drop 8)
  | _ => none

/-- A backslash that ends its line takes the line end with it, and all blanks after that. -/
def continued? (t : Text) : Option Text :=
  (newline? (skip t)).map skipBlankLines

/-- The quotes at the start of a text with which a string of several lines ends: three, and up
to two more that belong to it. -/
def closing? (quote : Char) (t : Text) : Option (Text × Text) :=
  let run := (t.takeWhile (· == quote)).length
  if run < 3 then none
  else
    let inner := min (run - 3) 2
    some (t.take inner, t.drop (inner + 3))

/-- How the text between the quotes of a string is read. -/
structure StringKind where
  quote : Char
  escapes : Bool
  multiline : Bool
  deriving DecidableEq, Repr

/-- The text of a string after its opening quotes, and what follows its closing ones. Every
step takes at least one character, so `fuel` is the length of the text. -/
def content? (kind : StringKind) : (fuel : Nat) → Text → Option (Text × Text)
  | 0, _ => none
  | _, [] => none
  | fuel + 1, c :: rest =>
    if c == kind.quote then
      if kind.multiline then
        match closing? kind.quote (c :: rest) with
        | some cut => some cut
        | none => (content? kind fuel rest).map fun (t, rest) => (c :: t, rest)
      else some ([], rest)
    else if kind.escapes && c == '\\' then
      match if kind.multiline then continued? rest else none with
      | some rest => content? kind fuel rest
      | none => do
        let (e, rest) ← escaped? rest
        let (t, rest) ← content? kind fuel rest
        some (e :: t, rest)
    else if isPlain c then (content? kind fuel rest).map fun (t, rest) => (c :: t, rest)
    else if kind.multiline then do
      let rest ← newline? (c :: rest)
      let (t, rest) ← content? kind fuel rest
      some ('\n' :: t, rest)
    else none

/-- A string of one line after its opening quote. -/
def line? (quote : Char) (escapes : Bool) (t : Text) : Option (Text × Text) :=
  content? ⟨quote, escapes, false⟩ (t.length + 1) t

/-- A string of several lines after its opening quotes. A line end right after them is not part
of it. -/
def lines? (quote : Char) (escapes : Bool) (t : Text) : Option (Text × Text) :=
  let t := (newline? t).getD t
  content? ⟨quote, escapes, true⟩ (t.length + 1) t

/-- The quote of strings without escapes. -/
def apostrophe : Char :=
  '\x27'

/-- A string of any kind. -/
def string? : Text → Option (Text × Text)
  | '"' :: '"' :: '"' :: rest => lines? '"' true rest
  | '"' :: rest => line? '"' true rest
  | '\x27' :: '\x27' :: '\x27' :: rest => lines? apostrophe false rest
  | '\x27' :: rest => line? apostrophe false rest
  | _ => none

/-! ## Numbers -/

/-- Digits, each of which may follow the one before it after an underscore. -/
def moreDigits? (isDigit : Char → Bool) : Text → Option (Text × Text)
  | '_' :: c :: rest =>
    if isDigit c then (moreDigits? isDigit rest).map fun (ds, rest) => (c :: ds, rest) else none
  | c :: rest =>
    if c == '_' then none
    else if isDigit c then (moreDigits? isDigit rest).map fun (ds, rest) => (c :: ds, rest)
    else some ([], c :: rest)
  | [] => some ([], [])

/-- At least one digit. -/
def digits? (isDigit : Char → Bool) : Text → Option (Text × Text)
  | c :: rest =>
    if isDigit c then (moreDigits? isDigit rest).map fun (ds, rest) => (c :: ds, rest) else none
  | [] => none

/-- The sign at the start of a text, if there is one, and whether it is a minus. -/
def sign : Text → Bool × Text
  | '-' :: rest => (true, rest)
  | '+' :: rest => (false, rest)
  | t => (false, t)

/-- The digits before a point: without a zero in front. -/
def whole? : Text → Option (Text × Text)
  | '0' :: rest => some (['0'], rest)
  | t => digits? Char.isDigit t

/-- The digits after a point. -/
def fraction? : Text → Option (Option Text × Text)
  | '.' :: rest => (digits? Char.isDigit rest).map fun (ds, rest) => (some ds, rest)
  | rest => some (none, rest)

/-- The power of ten after an `e`. -/
def exponent? : Text → Option (Option Int × Text)
  | [] => some (none, [])
  | e :: rest =>
    if e == 'e' || e == 'E' then do
      let (negative, rest) := sign rest
      let (ds, rest) ← digits? Char.isDigit rest
      let n : Int := Json.decimal ds
      some (some (if negative then -n else n), rest)
    else some (none, e :: rest)

/-- Whether a decimal is beyond the numbers of 53 binary digits with an exponent below 1024: at
least the middle between the greatest of them and the power of two after it. -/
def overflows (digits : Text) (exponent : Int) : Bool :=
  let limit := Nat.pow 2 1024 - Nat.pow 2 970
  let mantissa := digits.dropWhile (· == '0')
  if mantissa.isEmpty then false
  else if (mantissa.length : Int) + exponent > 400 then true
  else if (mantissa.length : Int) + exponent < 300 then false
  else if exponent ≥ 0 then Json.decimal mantissa * Nat.pow 10 exponent.toNat ≥ limit
  else Json.decimal mantissa ≥ limit * Nat.pow 10 (-exponent).toNat

/-- Half the number of words of 64 bits. -/
def wordHalf : Nat :=
  9223372036854775808

/-- An integer or a decimal. Integers are of 64 bits with a sign, and a decimal must not be
greater than what is finite. -/
def decimal? (t : Text) : Option (Value × Text) := do
  let (negative, t) := sign t
  let (ds, t) ← whole? t
  let (fs, t) ← fraction? t
  let (e, t) ← exponent? t
  if fs.isNone && e.isNone then
    let n := Json.decimal ds
    if negative then
      if n > wordHalf then none else some (if n = 0 then .natural 0 else .otherNumber, t)
    else if n < wordHalf then some (.natural n, t) else none
  else
    let fs := fs.getD []
    if !negative && overflows (ds ++ fs) (e.getD 0 - fs.length) then none
    else some (.otherNumber, t)

/-- An integer in a base other than ten, after its mark. -/
def based? (base : Nat) (t : Text) : Option (Value × Text) := do
  let isDigit (c : Char) : Bool := (Json.hexDigit? c).any (· < base)
  let (ds, rest) ← digits? isDigit t
  let n := ds.foldl (fun n c => base * n + (Json.hexDigit? c).getD 0) 0
  if n < wordHalf then some (.natural n, rest) else none

/-- A number. -/
def number? (t : Text) : Option (Value × Text) :=
  match t with
  | '0' :: 'x' :: rest => based? 16 rest
  | '0' :: 'o' :: rest => based? 8 rest
  | '0' :: 'b' :: rest => based? 2 rest
  | t =>
    match (sign t).2 with
    | 'i' :: 'n' :: 'f' :: rest => some (.otherNumber, rest)
    | 'n' :: 'a' :: 'n' :: rest => some (.otherNumber, rest)
    | _ => decimal? t

/-! ## Dates -/

/-- A number of two digits between two bounds. -/
def twoDigits? (lo hi : Nat) : Text → Option (Nat × Text)
  | a :: b :: rest =>
    if a.isDigit && b.isDigit then
      let n := Json.decimal [a, b]
      if lo ≤ n && n ≤ hi then some (n, rest) else none
    else none
  | _ => none

/-- What follows a given character. -/
def after? (c : Char) : Text → Option Text
  | d :: rest => if d == c then some rest else none
  | [] => none

/-- The number of days of a month. -/
def daysIn (year month : Nat) : Nat :=
  if month = 2 then
    if year % 4 = 0 && (year % 100 ≠ 0 || year % 400 = 0) then 29 else 28
  else if month = 4 || month = 6 || month = 9 || month = 11 then 30
  else 31

/-- What follows a date, of which the year is read. -/
def afterYear? (year : Nat) (t : Text) : Option Text := do
  let (month, t) ← twoDigits? 1 12 t
  let t ← after? '-' t
  let (_, t) ← twoDigits? 1 (daysIn year month) t
  some t

/-- What follows a time of day, of which the hour and a colon are read. -/
def afterHour? (t : Text) : Option Text := do
  let (_, t) ← twoDigits? 0 59 t
  let t ← after? ':' t
  let (_, t) ← twoDigits? 0 60 t
  match t with
  | '.' :: t =>
    match t.span Char.isDigit with
    | ([], _) => none
    | (_, rest) => some rest
  | t => some t

/-- What follows the offset from universal time, if there is one. -/
def afterOffset? : Text → Option Text
  | [] => some []
  | c :: t =>
    if c == 'Z' || c == 'z' then some t
    else if c == '+' || c == '-' then do
      let (_, t) ← twoDigits? 0 23 t
      let t ← after? ':' t
      let (_, t) ← twoDigits? 0 59 t
      some t
    else some (c :: t)

/-- What follows the time of day after a date, if there is one. -/
def afterTime? : Text → Option Text
  | [] => some []
  | c :: t =>
    if c == 'T' || c == 't' || c == ' ' then
      match twoDigits? 0 23 t with
      | some (_, ':' :: t) => (afterHour? t).bind afterOffset?
      | _ => some (c :: t)
    else some (c :: t)

/-- A date, a date with a time, or a time, told from a number by its first five characters. -/
def date? (t : Text) : Option (Option Text) :=
  match t with
  | a :: b :: c :: d :: '-' :: rest =>
    if a.isDigit && b.isDigit && c.isDigit && d.isDigit then
      some ((afterYear? (Json.decimal [a, b, c, d]) rest).bind afterTime?)
    else none
  | a :: b :: ':' :: rest =>
    if a.isDigit && b.isDigit then some ((twoDigits? 0 23 [a, b]).bind fun _ => afterHour? rest)
    else none
  | _ => none

/-- A number or a date. -/
def numberOrDate? (t : Text) : Option (Value × Text) :=
  match date? t with
  | some rest? => rest?.map (.date, ·)
  | none => number? t

end LocaleSync.Document.Toml
