import YangEvolution.Toml.Expression

/-!
TOML documents: the pairs before the first header make up the outermost table, and each header
places the pairs after it in a table of its own.
-/

namespace YangEvolution.Toml

/-- A header and the pairs after it. -/
structure Section where
  key : Key
  isItem : Bool
  pairs : List (Key × Value)

/-- The pairs before the first header, and the sections after them. -/
def sections : List Line → List (Key × Value) × List Section
  | [] => ([], [])
  | .pair key v :: rest =>
    let (pairs, others) := sections rest
    ((key, v) :: pairs, others)
  | .header key :: rest =>
    let (pairs, others) := sections rest
    ([], ⟨key, false, pairs⟩ :: others)
  | .item key :: rest =>
    let (pairs, others) := sections rest
    ([], ⟨key, true, pairs⟩ :: others)

/-- Changes the table that names lead to. Tables that do not exist are made; an array of tables
stands for the last of its tables. -/
def changeAt (change : Entries → Option Entries) : List String → Entries → Option Entries
  | [], entries => change entries
  | step :: path, entries =>
    match entries.lookup step with
    | none => do
      let inner ← changeAt change path []
      some (entries ++ [(step, .table .implied inner)])
    | some (.table form inner) =>
      if form = .braced then none
      else do
        let inner ← changeAt change path inner
        some (setEntry step (.table form inner) entries)
    | some (.tables items) =>
      match items.getLast? with
      | some inner => do
        let inner ← changeAt change path inner
        some (setEntry step (.tables (items.dropLast ++ [inner])) entries)
      | none => none
    | some _ => none

/-- Places a table of its own. It may have been implied before, and then comes after all others. -/
def placeTable (s : Section) (entries : Entries) : Option Entries :=
  match entries.lookup s.key.last with
  | none => do
    let inner ← addPairs [] s.pairs
    some (entries ++ [(s.key.last, .table .stated inner)])
  | some (.table .implied inner) => do
    let inner ← addPairs inner s.pairs
    some (entries.filter (fun (name, _) => name != s.key.last) ++
      [(s.key.last, .table .stated inner)])
  | some _ => none

/-- Places a table at the end of an array of tables. -/
def placeItem (s : Section) (entries : Entries) : Option Entries :=
  match entries.lookup s.key.last with
  | none => do
    let inner ← addPairs [] s.pairs
    some (entries ++ [(s.key.last, .tables [inner])])
  | some (.tables items) => do
    let inner ← addPairs [] s.pairs
    some (setEntry s.key.last (.tables (items ++ [inner])) entries)
  | some _ => none

def placeSection (entries : Entries) (s : Section) : Option Entries :=
  changeAt (if s.isItem then placeItem s else placeTable s) s.key.path entries

/-- The outermost table of a document; a mark of the byte order before it is skipped. -/
def read (text : String) : Option Entries := do
  let cs := match text.toList with
    | '\ufeff' :: rest => rest
    | cs => cs
  let lines ← readLines (cs.length + 1) cs
  let (pairs, others) := sections lines
  let entries ← addPairs [] pairs
  others.foldlM placeSection entries

end YangEvolution.Toml
