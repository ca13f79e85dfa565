import YangEvolution.Toml.Trivia

/-!
Strings of a TOML document: between double quotes with escapes or between single quotes as they
are, on one line or, between three quotes each, over several lines.
-/

namespace YangEvolution.Toml

def hexDigit? (c : Char) : Option Nat :=
  if c.isDigit then some (c.toNat - '0'.toNat)
  else if 'a' ≤ c ∧ c ≤ 'f' then some (c.toNat - 'a'.toNat + 10)
  else if 'A' ≤ c ∧ c ≤ 'F' then some (c.toNat - 'A'.toNat + 10)
  else none

/-- The number that hexadecimal digits stand for. -/
def hexNumber (digits : List Char) : Option Nat :=
  digits.foldlM (fun n c => (hexDigit? c).map fun d => 16 * n + d) 0

/-- The character of a number in hexadecimal digits, if there is one. -/
def charOfHex? (digits : List Char) : Option Char := do
  let n ← hexNumber digits
  if n.isValidChar then some (Char.ofNat n) else none

/-- The character that an escape with one letter stands for. -/
def escaped? : Char → Option Char
  | 'b' => some '\x08'
  | 't' => some '\t'
  | 'n' => some '\n'
  | 'f' => some '\x0c'
  | 'r' => some '\r'
  | '"' => some '"'
  | '\\' => some '\\'
  | _ => none

/-- The rest of a string on one line with escapes, where `acc` is what was read, reversed. -/
def readEscaped (acc : List Char) : Reader (List Char)
  | '"' :: rest => some (acc.reverse, rest)
  | '\\' :: 'u' :: a :: b :: c :: d :: rest =>
    match charOfHex? [a, b, c, d] with
    | some x => readEscaped (x :: acc) rest
    | none => none
  | '\\' :: 'U' :: a :: b :: c :: d :: e :: f :: g :: h :: rest =>
    match charOfHex? [a, b, c, d, e, f, g, h] with
    | some x => readEscaped (x :: acc) rest
    | none => none
  | '\\' :: c :: rest =>
    match escaped? c with
    | some x => readEscaped (x :: acc) rest
    | none => none
  | c :: rest => if c != '\\' && isPlain c then readEscaped (c :: acc) rest else none
  | [] => none

/-- The rest of a string on one line without escapes. -/
def readLiteral (acc : List Char) : Reader (List Char)
  | [] => none
  | c :: rest =>
    if c = '\'' then some (acc.reverse, rest)
    else if isPlain c then readLiteral (c :: acc) rest
    else none

/-- Whether only blanks come before the next line break. -/
def breaksNext (cs : List Char) : Bool :=
  (afterBreak? (skipSpace cs)).isSome

/-- The rest of a string over several lines with escapes. A backslash at the end of a line joins it
with what follows the blanks and line breaks after it; while these are skipped, `joining` holds. A
line break is read as a line feed, and up to two quotes may stand before the three that end the
string. -/
def readEscapedLines (joining : Bool) (acc : List Char) : Reader (List Char)
  | '"' :: '"' :: '"' :: '"' :: '"' :: rest => some (('"' :: '"' :: acc).reverse, rest)
  | '"' :: '"' :: '"' :: '"' :: rest => some (('"' :: acc).reverse, rest)
  | '"' :: '"' :: '"' :: rest => some (acc.reverse, rest)
  | '\r' :: '\n' :: rest => readEscapedLines joining (if joining then acc else '\n' :: acc) rest
  | '\n' :: rest => readEscapedLines joining (if joining then acc else '\n' :: acc) rest
  | '\\' :: 'u' :: a :: b :: c :: d :: rest =>
    match charOfHex? [a, b, c, d] with
    | some x => readEscapedLines false (x :: acc) rest
    | none => none
  | '\\' :: 'U' :: a :: b :: c :: d :: e :: f :: g :: h :: rest =>
    match charOfHex? [a, b, c, d, e, f, g, h] with
    | some x => readEscapedLines false (x :: acc) rest
    | none => none
  | '\\' :: c :: rest =>
    if breaksNext (c :: rest) then readEscapedLines true acc (c :: rest)
    else
      match escaped? c with
      | some x => readEscapedLines false (x :: acc) rest
      | none => none
  | c :: rest =>
    if joining && isSpace c then readEscapedLines true acc rest
    else if c != '\\' && isPlain c then readEscapedLines false (c :: acc) rest
    else none
  | [] => none

/-- The rest of a string over several lines without escapes. -/
def readLiteralLines (acc : List Char) : Reader (List Char)
  | '\'' :: '\'' :: '\'' :: '\'' :: '\'' :: rest => some (('\'' :: '\'' :: acc).reverse, rest)
  | '\'' :: '\'' :: '\'' :: '\'' :: rest => some (('\'' :: acc).reverse, rest)
  | '\'' :: '\'' :: '\'' :: rest => some (acc.reverse, rest)
  | '\r' :: '\n' :: rest => readLiteralLines ('\n' :: acc) rest
  | '\n' :: rest => readLiteralLines ('\n' :: acc) rest
  | c :: rest => if isPlain c then readLiteralLines (c :: acc) rest else none
  | [] => none

/-- A line break right after three quotes does not belong to the string. -/
def dropBreak (cs : List Char) : List Char :=
  (afterBreak? cs).getD cs

/-- A string on one line. -/
def readLineString : Reader String
  | '"' :: rest => (readEscaped [] rest).map fun (s, rest) => (String.ofList s, rest)
  | '\'' :: rest => (readLiteral [] rest).map fun (s, rest) => (String.ofList s, rest)
  | _ => none

/-- A string of any of the four kinds. -/
def readString : Reader String
  | '"' :: '"' :: '"' :: rest =>
    (readEscapedLines false [] (dropBreak rest)).map fun (s, rest) => (String.ofList s, rest)
  | '\'' :: '\'' :: '\'' :: rest =>
    (readLiteralLines [] (dropBreak rest)).map fun (s, rest) => (String.ofList s, rest)
  | cs => readLineString cs

end YangEvolution.Toml
