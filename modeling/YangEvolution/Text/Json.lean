import YangEvolution.Text.Numeral

/-!
JSON values with ordered fields and without fractions, and their two written forms: on one line,
and over several lines with two more blanks of indentation at each level.
-/

namespace YangEvolution.Text

inductive Json where
  | null
  | bool (b : Bool)
  | int (v : Int)
  | str (s : String)
  | arr (items : List Json)
  | obj (fields : List (String × Json))

namespace Json

def ofOption (s : Option String) : Json :=
  match s with
  | some s => .str s
  | none => .null

/-- The lower-case hexadecimal digit of a number below sixteen. -/
def hexDigit (n : Nat) : Char :=
  if n < 10 then Char.ofNat (n + '0'.toNat) else Char.ofNat (n - 10 + 'a'.toNat)

/-- Only quotes, backslashes and the characters below U+0020 are escaped. -/
def escapeChar (c : Char) : List Char :=
  if c = '"' then ['\\', '"']
  else if c = '\\' then ['\\', '\\']
  else if c = '\n' then ['\\', 'n']
  else if c = '\t' then ['\\', 't']
  else if c = '\r' then ['\\', 'r']
  else if c = '\x08' then ['\\', 'b']
  else if c = '\x0c' then ['\\', 'f']
  else if c.toNat < 0x20 then
    ['\\', 'u', '0', '0', hexDigit (c.toNat / 16), hexDigit (c.toNat % 16)]
  else [c]

def quote (s : String) : List Char :=
  '"' :: s.toList.flatMap escapeChar ++ ['"']

mutual

def compactChars : Json → List Char
  | .null => "null".toList
  | .bool true => "true".toList
  | .bool false => "false".toList
  | .int v => (intText v).toList
  | .str s => quote s
  | .arr items => '[' :: compactItems items ++ [']']
  | .obj fields => '\x7b' :: compactFields fields ++ ['\x7d']

def compactItems : List Json → List Char
  | [] => []
  | [j] => j.compactChars
  | j :: k :: rest => j.compactChars ++ ',' :: compactItems (k :: rest)

def compactFields : List (String × Json) → List Char
  | [] => []
  | [(key, j)] => quote key ++ ':' :: j.compactChars
  | (key, j) :: field :: rest =>
    quote key ++ ':' :: j.compactChars ++ ',' :: compactFields (field :: rest)

end

/-- A new line indented by `indent` blanks. -/
def lineBreak (indent : Nat) : List Char :=
  '\n' :: List.replicate indent ' '

mutual

/-- The written form over several lines of a value that stands at indentation `indent`. -/
def prettyChars (indent : Nat) : Json → List Char
  | .null => "null".toList
  | .bool true => "true".toList
  | .bool false => "false".toList
  | .int v => (intText v).toList
  | .str s => quote s
  | .arr [] => ['[', ']']
  | .arr (j :: rest) =>
    '[' :: prettyItems (indent + 2) (j :: rest) ++ lineBreak indent ++ [']']
  | .obj [] => ['\x7b', '\x7d']
  | .obj (field :: rest) =>
    '\x7b' :: prettyFields (indent + 2) (field :: rest) ++ lineBreak indent ++ ['\x7d']

def prettyItems (indent : Nat) : List Json → List Char
  | [] => []
  | [j] => lineBreak indent ++ prettyChars indent j
  | j :: k :: rest =>
    lineBreak indent ++ prettyChars indent j ++ ',' :: prettyItems indent (k :: rest)

def prettyFields (indent : Nat) : List (String × Json) → List Char
  | [] => []
  | [(key, j)] => lineBreak indent ++ quote key ++ ':' :: ' ' :: prettyChars indent j
  | (key, j) :: field :: rest =>
    lineBreak indent ++ quote key ++ ':' :: ' ' :: prettyChars indent j ++
      ',' :: prettyFields indent (field :: rest)

end

/-- The value on one line, without blanks. -/
def compact (j : Json) : String :=
  String.ofList j.compactChars

/-- The value over several lines. -/
def pretty (j : Json) : String :=
  String.ofList (prettyChars 0 j)

end Json

end YangEvolution.Text
