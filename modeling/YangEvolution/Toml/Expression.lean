import YangEvolution.Toml.Scalar

/-!
Keys, values and the lines of a TOML document. Values are nested a bounded number of times; the
parts of a key and the items of a list are bounded by the length of the text.
-/

namespace YangEvolution.Toml

open Text

/-- The names of a dotted key, the last of them apart. -/
structure Key where
  path : List String
  last : String
  deriving DecidableEq

/-- The least number of names in a key, and of arrays and tables in one another, that is too great.
-/
def nestingLimit : Nat := 80

def isBareChar (c : Char) : Bool :=
  c.isAlphanum || c == '_' || c == '-'

/-- One name of a key, with the blanks around it. -/
def readName : Reader String := fun cs =>
  let cs := skipSpace cs
  let bare := cs.takeWhile isBareChar
  if bare.isEmpty then
    (readLineString cs).map fun (s, rest) => (s, skipSpace rest)
  else some (String.ofList bare, skipSpace (cs.drop bare.length))

def readNames : Nat → Reader (List String)
  | 0, _ => none
  | bound + 1, cs => do
    let (name, rest) ← readName cs
    match rest with
    | '.' :: rest =>
      let (names, rest) ← readNames bound rest
      some (name :: names, rest)
    | _ => some ([name], rest)

/-- A key, with the blanks around it. -/
def readKey : Reader Key := fun cs => do
  let (names, rest) ← readNames cs.length cs
  if nestingLimit ≤ names.length then none
  else some (⟨names.dropLast, names.getLast?.getD ""⟩, rest)

/-- Adds an entry under a new name. -/
def addEntry (name : String) (v : Value) (entries : Entries) : Option Entries :=
  if (entries.lookup name).isSome then none else some (entries ++ [(name, v)])

/-- Replaces the value of a name. -/
def setEntry (name : String) (v : Value) : Entries → Entries
  | [] => []
  | (n, w) :: rest => if n = name then (n, v) :: rest else (n, w) :: setEntry name v rest

/-- Adds a value under a dotted key. Tables that do not exist are made; only tables made by dotted
keys can be added to. -/
def addBelow (name : String) (v : Value) : List String → TableForm → Entries → Option Entries
  | [], form, entries => if form = .dotted then addEntry name v entries else none
  | step :: path, _, entries =>
    match entries.lookup step with
    | none => do
      let inner ← addBelow name v path .dotted []
      some (entries ++ [(step, .table .dotted inner)])
    | some (.table form inner) =>
      if form = .implied || form = .dotted then do
        let inner ← addBelow name v path form inner
        some (setEntry step (.table form inner) entries)
      else none
    | some (.tables items) =>
      match items.getLast? with
      | some inner => do
        let inner ← addBelow name v path .stated inner
        some (setEntry step (.tables (items.dropLast ++ [inner])) entries)
      | none => none
    | some _ => none

/-- Adds pairs of keys and values to a table. -/
def addPairs (entries : Entries) (pairs : List (Key × Value)) : Option Entries :=
  pairs.foldlM (fun entries (key, v) => addBelow key.last v key.path .dotted entries) entries

/-- The items of an array, after its opening bracket. A comma may follow the last one. -/
def readItems (item : Reader Value) : Nat → Reader (List Value)
  | 0, _ => none
  | bound + 1, cs =>
    match skipTrivia false cs with
    | ']' :: rest => some ([], rest)
    | cs => do
      let (v, rest) ← item cs
      match skipTrivia false rest with
      | ',' :: rest =>
        let (items, rest) ← readItems item bound rest
        some (v :: items, rest)
      | ']' :: rest => some ([v], rest)
      | _ => none

/-- A key, an equals sign and a value. -/
def readPair (value : Reader Value) : Reader (Key × Value) := fun cs => do
  let (key, rest) ← readKey cs
  let (v, rest) ← value (skipSpace (← afterChar? '=' rest))
  some ((key, v), rest)

/-- The pairs of a table in braces, up to its closing brace. -/
def readPairs (value : Reader Value) : Nat → Reader (List (Key × Value))
  | 0, _ => none
  | bound + 1, cs => do
    let (pair, rest) ← readPair value cs
    match skipSpace rest with
    | ',' :: rest =>
      let (pairs, rest) ← readPairs value bound rest
      some (pair :: pairs, rest)
    | '\x7d' :: rest => some ([pair], rest)
    | _ => none

/-- A table in braces, after its opening brace. -/
def readBraced (value : Reader Value) : Reader Value := fun cs =>
  match skipSpace cs with
  | '\x7d' :: rest => some (.table .braced [], rest)
  | cs => do
    let (pairs, rest) ← readPairs value cs.length cs
    let entries ← addPairs [] pairs
    some (.table .braced entries, rest)

/-- A value, where `inner` reads the values in it. -/
def readValueVia (inner : Reader Value) : Reader Value
  | '[' :: rest => (readItems inner (rest.length + 1) rest).map fun (vs, rest) => (.array vs, rest)
  | '\x7b' :: rest => readBraced inner rest
  | '"' :: rest => (readString ('"' :: rest)).map fun (s, rest) => (.string s, rest)
  | '\'' :: rest => (readString ('\'' :: rest)).map fun (s, rest) => (.string s, rest)
  | cs => readScalar cs

/-- Whether an array or a table in braces comes next. -/
def nestsNext (cs : List Char) : Bool :=
  cs.head? == some '[' || cs.head? == some '\x7b'

/-- A value with at most `depth` arrays and tables in one another. -/
def readValue : Nat → Reader Value
  | 0 => fun cs => if nestsNext cs then none else readValueVia (fun _ => none) cs
  | depth + 1 => readValueVia (readValue depth)

/-- A line that is not empty. -/
inductive Line where
  | header (key : Key)
  | item (key : Key)
  | pair (key : Key) (value : Value)

/-- The key of a header up to its closing brackets. -/
def readHeader : Reader Line
  | '[' :: '[' :: rest => do
    let (key, rest) ← readKey rest
    some (.item key, ← afterChar? ']' (← afterChar? ']' rest))
  | '[' :: rest => do
    let (key, rest) ← readKey rest
    some (.header key, ← afterChar? ']' rest)
  | _ => none

def readLine : Reader Line
  | '[' :: rest => readHeader ('[' :: rest)
  | cs => do
    let ((key, v), rest) ← readPair (readValue (nestingLimit - 1)) cs
    some (.pair key v, rest)

/-- All lines of a document. -/
def readLines : Nat → List Char → Option (List Line)
  | 0, _ => none
  | bound + 1, cs =>
    match skipSpace cs with
    | [] => some []
    | c :: rest =>
      if c = '#' || c = '\n' || c = '\r' then do
        readLines bound (← afterLine? (c :: rest))
      else do
        let (line, rest) ← readLine (c :: rest)
        let lines ← readLines bound (← afterLine? rest)
        some (line :: lines)

end YangEvolution.Toml
