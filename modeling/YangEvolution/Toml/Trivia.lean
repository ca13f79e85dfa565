/-!
What stands between the parts of a TOML document: blanks, line breaks and comments.
-/

namespace YangEvolution.Toml

/-- Reads from the front of a text and tells what is left of it. -/
abbrev Reader (α : Type) := List Char → Option (α × List Char)

def isSpace (c : Char) : Bool :=
  c == ' ' || c == '\t'

/-- The characters that a comment may hold, which are all but controls. -/
def isPlain (c : Char) : Bool :=
  c == '\t' || (0x20 ≤ c.toNat && c.toNat ≤ 0x7e) || 0x80 ≤ c.toNat

def skipSpace (cs : List Char) : List Char :=
  cs.dropWhile isSpace

/-- What follows a line break, which is a line feed with or without a carriage return. -/
def afterBreak? : List Char → Option (List Char)
  | '\n' :: rest => some rest
  | '\r' :: '\n' :: rest => some rest
  | _ => none

/-- What follows the end of a line, where there may be blanks and a comment before it. -/
def afterLine? (cs : List Char) : Option (List Char) :=
  let ending := match skipSpace cs with
    | '#' :: rest => rest.dropWhile isPlain
    | rest => rest
  match ending with
  | [] => some []
  | rest => afterBreak? rest

/-- Skips blanks, line breaks and comments; `comment` tells whether the text is in a comment. -/
def skipTrivia (comment : Bool) : List Char → List Char
  | [] => []
  | '\n' :: rest => skipTrivia false rest
  | '\r' :: '\n' :: rest => skipTrivia false rest
  | c :: rest =>
    if comment then
      if isPlain c then skipTrivia true rest else c :: rest
    else if c = '#' then skipTrivia true rest
    else if isSpace c then skipTrivia false rest
    else c :: rest

end YangEvolution.Toml
